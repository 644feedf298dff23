import Topics.WritePath

/-!
# Head reservation of `disk` topics

A `disk` write is acknowledged before its frame is synced, so a crash can lose the frame.  To
keep the seq from being handed out again, the writer first syncs a `HeadWatermark` above it
(`ensure_disk_head_reserved`), and recovery resumes behind the highest watermark it finds.
-/

namespace Topics

namespace WritePath

open Lib TopicState CommitLog List Option TopicIndex

variable {Blob : Type} {S : Serde Blob} {spec : TopicSpec}

def syncedMark (s : WritePath Blob) : Nat := headMarks (s.wal.committed.take s.wal.synced)

/-- The invariant of a `disk` topic. -/
structure Reserved (S : Serde Blob) (spec : TopicSpec) (s : WritePath Blob) : Prop
    extends Base S spec s where
  mark : s.topic.reservedHead ≤ s.syncedMark
  published : ∀ p ∈ s.published, p.1 ≤ s.topic.reservedHead
  head : s.topic.headSeq ≤ max s.topic.reservedHead s.recoveredHead
  before : ∀ q ∈ s.publishedBefore, q ≤ s.recoveredHead
  tail : s.recoveredHead < s.topic.index.tail
  start : ∀ records g, s.locked = some (records, g) → s.recoveredHead < g.start
  assigned : ∀ q ∈ s.assigned, s.recoveredHead < q

theorem Reserved.init : Reserved S spec (init spec) where
  toBase := Base.init
  mark := le_rfl
  published _ h := by cases h
  head := le_rfl
  before _ h := by cases h
  tail := by
    rw [show (WritePath.init spec : WritePath Blob).topic.index.tail = seqBaseDefault from
      tail_new _]
    exact Nat.one_pos
  start _ _ h := by cases h
  assigned _ h := by cases h

/-! ## Marks -/

theorem headMarks_synced_mono {w w' : CommitLog (WalRecord Blob)} (hw : w.WF)
    {a : LogAction} (ha : w.step a = some w') :
    headMarks (w.committed.take w.synced) ≤ headMarks (w'.committed.take w'.synced) := by
  apply headMarks_le
  intro f hf
  exact headMark_le_headMarks
    (mem_synced_of_effect hw.synced_le (effect_of_step ha).1 hf)

variable {s s' : WritePath Blob} {g : StagedAppend} {records : List StoredRecord}
  {topic : TopicState}

theorem target_le_syncedMark (h : Base S spec s) {token target : Nat}
    (hr : s.reserving = some (token, target)) (ho : s.wal.outcome token = some true) :
    target ≤ s.syncedMark := by
  obtain ⟨⟨ts, hts⟩, _⟩ := h.reserving token target hr
  have hset := h.wf.settled_of_outcome hts ho
  have hmem := h.wf.durable _ hset rfl rfl _ mem_cons_self
  exact headMark_le_headMarks hmem

theorem le_publishHead_of_mem_seqs {q : Nat} (h : q ∈ g.seqs) :
    q ≤ g.publishHead := by
  have := mem_range'_1.mp h
  unfold StagedAppend.publishHead
  omega

theorem headSeq_publishStagedNoSeal_le {b : TopicState} {n : Nat} (hb : b.headSeq ≤ n)
    (hg : g.publishHead ≤ n) : (b.publishStagedNoSeal g).headSeq ≤ n := by
  unfold publishStagedNoSeal
  split
  · exact hb
  · exact hg

theorem publishHead_le (h : Base S spec s) (hdisk : spec.config.durabilityClass = .disk) {t : Nat}
    {n : Int} {rest : List Ticket} (ht : s.tickets = ⟨t, .append records g n⟩ :: rest)
    (htopic : (topic = s.topic ∧ s.reserving = none ∧ s.needsReservation spec g = false) ∨
      ∃ token' target, s.reserving = some (token', target) ∧
      s.wal.outcome token' = some true ∧ topic = s.topic.setReservedHead target) :
    g.publishHead ≤ topic.reservedHead := by
  rcases htopic with ⟨rfl, _, hneed⟩ | ⟨token', target, hr, _, rfl⟩
  · have : g.publishHead < s.topic.reservedHead := by simpa [needsReservation, hdisk] using hneed
    exact le_of_lt this
  · obtain ⟨_, t', records', g', n', rest', ht', hle⟩ := h.reserving token' target hr
    rw [ht, cons.injEq, Ticket.mk.injEq, TicketOp.append.injEq] at ht'
    obtain ⟨⟨_, _, rfl, _⟩, _⟩ := ht'
    exact hle.trans (le_max_right _ _)

theorem start_le_tail_rollbackStaged (h : Base S spec s) (hl : s.locked = some (records, g)) :
    g.start ≤ (s.topic.rollbackStaged g).index.tail := by
  obtain ⟨_, hpos, hbase, htail⟩ := h.locked records g hl
  unfold rollbackStaged
  rw [if_neg (by omega), tail_truncate]
  unfold TopicIndex.tail at htail
  omega

theorem persistent_of_disk {c : TopicConfig} (h : c.durabilityClass = .disk) :
    c.usesPersistentRecordStore = true := by
  simp [TopicConfig.usesPersistentRecordStore, h]

theorem recovered_topic (hS : S.RoundTrips) (hp : spec.config.usesPersistentRecordStore = true)
    {now : Int} {frames : List (WalRecord Blob)}
    (hf : ∀ f ∈ frames, f.addresses spec.topicId = true)
    (hrec : spec.recover S now frames = some topic) :
    topic.reservedHead = headMarks frames ∧ headMarks frames ≤ topic.headSeq ∧
      topic.index.tail = topic.headSeq + 1 := by
  rw [TopicSpec.recover_eq hS spec now hf, some.injEq] at hrec
  have hsound : spec.fresh.Sound := sound_new hp
  have hmarks : (spec.fresh.replayAll S frames).reservedHead = headMarks frames := by
    rw [reservedHead_replayAll S hsound]
    exact Nat.zero_max _
  subst hrec
  refine ⟨?_, ?_, tail_applyHeadWatermark (hsound.replayAll S frames).dense⟩
  · rw [applyHeadWatermark_reservedHead, hmarks]
  · rw [applyHeadWatermark_headSeq, hmarks]
    exact le_max_right _ _

/-- **Every step of a `disk` topic keeps the reservation invariant**, whatever fails. -/
theorem Reserved.step (hS : S.RoundTrips) (hdisk : spec.config.durabilityClass = .disk)
    (h : Reserved S spec s) {a : WriteAction} (ha : step S spec s a = some s') :
    Reserved S spec s' := by
  have hbase := h.toBase.step ha
  cases move_of_step ha with
  | stage records hl hr =>
    have hstart : s.recoveredHead < (s.topic.stageAppend records).2.start := h.tail
    refine ⟨hbase, h.mark, h.published, h.head, h.before, ?_, ?_, ?_⟩
    · exact h.tail.trans_le (by
        rw [show (s.topic.stageAppend records).1.index = s.topic.index.pushAll records from rfl,
          tail_pushAll]
        exact Nat.le_add_right _ _)
    · intro records' g hg
      cases hg
      exact hstart
    · intro q hq
      rcases mem_append.mp hq with hq | hq
      · exact h.assigned q hq
      · exact hstart.trans_le (mem_range'_1.mp hq).1
  | enqueue now records g hl =>
    exact ⟨hbase, h.mark, h.published, h.head, h.before, h.tail,
      fun _ _ hn => (by cases hn), h.assigned⟩
  | enqueueFail records g hl =>
    have htail := lt_of_lt_of_le (h.start records g hl) (start_le_tail_rollbackStaged h.toBase hl)
    refine ⟨hbase, ?_, ?_, ?_, h.before, htail, fun _ _ hn => (by cases hn), h.assigned⟩
    · rw [rollbackStaged_reservedHead]
      exact h.mark
    · simp only [rollbackStaged_reservedHead]
      exact h.published
    · simp only [rollbackStaged_reservedHead, rollbackStaged_headSeq]
      exact h.head
  | control | reserve =>
    exact ⟨hbase, h.mark, h.published, h.head, h.before, h.tail, h.start, h.assigned⟩
  | wal a w hw =>
    exact ⟨hbase, h.mark.trans (headMarks_synced_mono h.wf hw), h.published, h.head,
      h.before, h.tail, h.start, h.assigned⟩
  | publish a token records g n rest topic ht ho htopic =>
    have hle := publishHead_le h.toBase hdisk ht htopic
    -- reserving only ever raises the ceiling, and only to a synced mark
    have htop : s.topic.reservedHead ≤ topic.reservedHead ∧ topic.reservedHead ≤ s.syncedMark ∧
        topic.headSeq = s.topic.headSeq ∧ topic.index = s.topic.index := by
      rcases htopic with ⟨rfl, _⟩ | ⟨token', target, hr, hok, rfl⟩
      · exact ⟨le_rfl, h.mark, rfl, rfl⟩
      · exact ⟨le_max_left _ _, max_le h.mark (target_le_syncedMark h.toBase hr hok), rfl, rfl⟩
    refine ⟨hbase, ?_, ?_, ?_, h.before, ?_, h.start, h.assigned⟩
    · simp only [publishBatch, publishStagedNoSeal_reservedHead]
      exact htop.2.1
    · intro p hp
      simp only [publishBatch, publishStagedNoSeal_reservedHead]
      rcases mem_append.mp hp with hp | hp
      · exact (h.published p hp).trans htop.1
      · exact le_trans (le_publishHead_of_mem_seqs (of_mem_zip hp).1) hle
    · simp only [publishBatch, publishStagedNoSeal_reservedHead]
      refine headSeq_publishStagedNoSeal_le ?_ (hle.trans (le_max_left _ _))
      rw [htop.2.2.1]
      exact h.head.trans (max_le (htop.1.trans (le_max_left _ _)) (le_max_right _ _))
    · simp only [publishBatch, publishStagedNoSeal_index, htop.2.2.2]
      exact h.tail
  | remove a topic tickets reserving passes hsteady htick =>
    refine ⟨hbase, ?_, ?_, ?_, h.before, ?_, h.start, h.assigned⟩
    · rw [hsteady.reservedHead]
      exact h.mark
    · simp only [hsteady.reservedHead]
      exact h.published
    · simp only [hsteady.reservedHead, hsteady.headSeq]
      exact h.head
    · simp only [hsteady.tail]
      exact h.tail
  | crash keep picks now topic hk hk' hrec =>
    have hf := h.addressed.survivors keep picks
    obtain ⟨hres, hhead, htail⟩ := recovered_topic hS (persistent_of_disk hdisk) hf hrec
    -- every synced watermark survived, so the old ceiling is below the recovered one
    have hmark : s.topic.reservedHead ≤ headMarks (s.wal.survivors keep picks) := by
      refine h.mark.trans (headMarks_le fun f hf' => headMark_le_headMarks ?_)
      exact (synced_prefix_survivors h.wf.synced_le hk picks).subset hf'
    refine ⟨hbase, ?_, ?_, ?_, ?_, ?_, fun _ _ hn => (by cases hn), fun _ hn => (by cases hn)⟩
    · unfold syncedMark
      simp only [restart, reopen, take_length]
      exact le_of_eq hres
    · intro p hp
      simp only [restart, hres]
      exact (h.published p hp).trans hmark
    · exact le_max_right _ _
    · intro q hq
      obtain ⟨p, hp, rfl⟩ := mem_map.mp hq
      exact (h.published p hp).trans (hmark.trans hhead)
    · simp only [restart, htail]
      exact Nat.lt_succ_self _

theorem recoveredHead_of_no_crash {as : List WriteAction}
    (hno : ∀ keep picks now, WriteAction.crash keep picks now ∉ as)
    (hrun : exec (WritePath.step S spec) s as = some s') : s'.recoveredHead = s.recoveredHead := by
  induction as generalizing s with
  | nil =>
    cases hrun
    rfl
  | cons a as ih =>
    obtain ⟨s₁, hstep, hrest⟩ := (exec_cons_eq_some _).mp hrun
    have hrec := ih (fun k p n hmem => hno k p n (mem_cons_of_mem a hmem)) hrest
    refine hrec.trans ?_
    cases move_of_step hstep with
    | crash keep picks now => exact absurd mem_cons_self (hno keep picks now)
    | _ => rfl

/-- **A `disk` topic never hands a seq out twice.**  In every run, with any number of crashes
and whatever batches and watermarks fail: every published seq is at most the highest synced
`HeadWatermark`; the head is too, except that a recovery may bring back written frames that no
watermark covers yet; and every seq assigned since the last recovery is greater than every
seq published, hence than every seq acknowledged, before it. -/
theorem published_le_watermark_and_assigned_fresh (hS : S.RoundTrips)
    (hdisk : spec.config.durabilityClass = .disk) {as : List WriteAction}
    {s : WritePath Blob} (hrun : exec (WritePath.step S spec) (WritePath.init spec) as = some s) :
    (∀ p ∈ s.published, p.1 ≤ s.syncedMark) ∧
      s.topic.headSeq ≤ max s.syncedMark s.recoveredHead ∧
      ((∀ keep picks now, WriteAction.crash keep picks now ∉ as) →
        s.topic.headSeq ≤ s.syncedMark) ∧
      ∀ a ∈ s.assigned, ∀ q ∈ s.publishedBefore, q < a := by
  have h : Reserved S spec s := exec_invariant _
    (fun _ _ _ hi hs => Reserved.step hS hdisk hi hs) Reserved.init hrun
  have hhead : s.topic.headSeq ≤ max s.syncedMark s.recoveredHead :=
    h.head.trans (max_le (h.mark.trans (le_max_left _ _)) (le_max_right _ _))
  refine ⟨fun p hp => (h.published p hp).trans h.mark, hhead, fun hno => ?_,
    fun a ha q hq => ?_⟩
  · rw [recoveredHead_of_no_crash hno hrun] at hhead
    exact hhead.trans (le_of_eq (Nat.max_zero _))
  · exact lt_of_le_of_lt (h.before q hq) (h.assigned a ha)

/-- A write, a crash that keeps the whole log, and a write after the recovery. -/
theorem published_le_watermark_two_lives :
    ∃ s, exec (WritePath.step Serde.identity (.ofClass .disk)) (WritePath.init (.ofClass .disk))
        (diskWrite ++ .crash 2 [] 0 :: diskWrite) = some s ∧
      s.publishedBefore = [1] ∧ s.assigned = [258] ∧
      (∀ p ∈ s.published, p.1 ≤ s.syncedMark) ∧ ∀ a ∈ s.assigned, ∀ q ∈ s.publishedBefore, q < a := by
  obtain ⟨s, hs⟩ : ∃ s, exec (WritePath.step Serde.identity (.ofClass .disk))
      (WritePath.init (.ofClass .disk)) (diskWrite ++ .crash 2 [] 0 :: diskWrite) = some s :=
    isSome_iff_exists.mp (by decide +kernel)
  have hval : ((exec (WritePath.step Serde.identity (.ofClass .disk))
      (WritePath.init (.ofClass .disk)) (diskWrite ++ .crash 2 [] 0 :: diskWrite)).map fun s =>
        (s.publishedBefore, s.assigned)) = some ([1], [258]) := by decide +kernel
  rw [hs, map_some, some.injEq, Prod.mk.injEq] at hval
  obtain ⟨hpub, _, _, hfresh⟩ :=
    published_le_watermark_and_assigned_fresh Serde.identity_roundTrips rfl hs
  exact ⟨s, hs, hval.1, hval.2, hpub, hfresh⟩

end WritePath

end Topics
