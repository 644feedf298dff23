import Topics.EvictedRecords

/-!
# Durability classes

`put_topic` may change the durability class of a topic at any time.  `ephemeral` records take
seqs without frames, and a snapshot of an `ephemeral` topic keeps its head but no records.
-/

namespace Topics

open Lib TopicState TopicIndex WritePath List Option Registry TopicRun

variable {Blob : Type}

/-! ## A record under replay -/

namespace TopicState

/-- The record is live at its seq, or a floor of the topic lies at or above it. -/
def Holds (b : TopicState) (q : Nat) (r : StoredRecord) : Prop :=
  b.index.live q = some r ∨ q ≤ b.floors.top

variable {S : Serde Blob} {clock : Int} {b : TopicState} {q : Nat} {r : StoredRecord}

theorem Holds.append (h : b.Holds q r) (records : List StoredRecord) :
    (b.append records).Holds q r := by
  rcases h with hlive | hfloor
  · left
    obtain ⟨hget, hdel⟩ := live_eq_some.mp hlive
    rw [append_index]
    refine live_eq_some.mpr ⟨?_, hdel⟩
    rw [get_pushAll, if_pos (lt_tail_of_get hget)]
    exact hget
  · right
    rw [append_floors]
    exact hfloor

theorem Holds.enforceRetention (h : b.Holds q r) (hq : b.seqBase ≤ q) (now : Int) :
    (b.enforceRetention now).Holds q r := by
  by_cases htop : q ≤ (b.enforceRetention now).floors.top
  · exact .inr htop
  · rcases h with hlive | hfloor
    · left
      rw [live_enforceRetention_of_top_lt hq (not_le.mp htop)]
      exact hlive
    · exact .inr (hfloor.trans (floors_le_enforceRetention b now).top)

theorem Holds.replayOwn (h : b.Holds q r) (hq : b.seqBase ≤ q) {f : WalRecord Blob}
    (hf : f.isDelete = false) : (b.replayOwn S clock f).Holds q r := by
  cases f with
  | append id seq ts node tag data =>
    simp only [TopicState.replayOwn, TopicState.replay]
    split
    · split
      · exact h.append _
      · exact h
    · exact h
  | delete => cases hf
  | topicConfig id op tombstone ts =>
    exact Holds.enforceRetention (b := { b with config := (S.configFromSlice op.config).getD {} })
      h hq clock
  | evictWatermark id evictFloor expiryFloor earliestSeq ts =>
    refine h.imp_right fun hfloor => hfloor.trans ?_
    exact Floors.Le.top ⟨le_max_left _ _, le_max_left _ _, le_rfl, le_rfl⟩
  | lease | headWatermark =>
    simp only [TopicState.replayOwn, TopicState.replay]
    split <;> exact h
  | routerCreate | routerDelete | checkpointMark => exact h

theorem replayOwn_seqBase (f : WalRecord Blob) : (b.replayOwn S clock f).seqBase = b.seqBase := by
  cases f with
  | append =>
    simp only [replayOwn, replay]
    split
    · split
      · exact append_seqBase b _
      · rfl
    · rfl
  | delete =>
    simp only [replayOwn, replay]
    split
    · split
      · exact (steady_applyDelete b _ _ _ _).seqBase
      · exact (steady_deleteSeqs b _).seqBase
    · rfl
  | topicConfig => exact (steady_enforceRetention _ clock).seqBase
  | evictWatermark | routerCreate | routerDelete | checkpointMark => rfl
  | lease | headWatermark =>
    simp only [replayOwn, replay]
    split <;> rfl

theorem top_le_replayOwn (f : WalRecord Blob) :
    b.floors.top ≤ (b.replayOwn S clock f).floors.top := by
  cases f with
  | append =>
    simp only [replayOwn, replay]
    split
    · split
      · rw [append_floors]
      · exact le_rfl
    · exact le_rfl
  | delete =>
    simp only [replayOwn, replay]
    split
    · split
      · exact (floors_le_applyDelete b _ _ _ _).top
      · exact le_rfl
    · exact le_rfl
  | topicConfig id op tombstone ts =>
    exact (floors_le_enforceRetention
      { b with config := (S.configFromSlice op.config).getD {} } clock).top
  | evictWatermark =>
    exact Floors.Le.top ⟨le_max_left _ _, le_max_left _ _, le_rfl, le_rfl⟩
  | lease | headWatermark =>
    simp only [replayOwn, replay]
    split <;> exact le_rfl
  | routerCreate | routerDelete | checkpointMark => exact le_rfl

theorem Holds.foldl_replayOwn (h : b.Holds q r) (hq : b.seqBase ≤ q)
    {frames : List (WalRecord Blob)} (hf : ∀ f ∈ frames, f.isDelete = false) :
    (frames.foldl (TopicState.replayOwn S clock) b).Holds q r := by
  induction frames generalizing b with
  | nil => exact h
  | cons f frames ih =>
    refine ih (h.replayOwn hq (hf f mem_cons_self)) ?_ fun g hg =>
      hf g (mem_cons_of_mem f hg)
    rw [replayOwn_seqBase]
    exact hq

theorem foldl_replayOwn_seqBase (frames : List (WalRecord Blob)) :
    (frames.foldl (TopicState.replayOwn S clock) b).seqBase = b.seqBase := by
  induction frames generalizing b with
  | nil => rfl
  | cons f frames ih => exact ih.trans (replayOwn_seqBase f)

theorem top_le_foldl_replayOwn (frames : List (WalRecord Blob)) :
    b.floors.top ≤ (frames.foldl (TopicState.replayOwn S clock) b).floors.top := by
  induction frames generalizing b with
  | nil => exact le_rfl
  | cons f frames ih => exact (top_le_replayOwn f).trans ih

theorem live_append_of_mem {stored : List StoredRecord} (hr : ∀ r ∈ stored, r.deleted = false)
    (hmem : (q, r) ∈ (List.range' b.index.tail stored.length).zip stored) :
    (b.append stored).index.live q = some r := by
  obtain ⟨i, hi, heq⟩ := mem_iff_getElem.mp hmem
  rw [getElem_zip, Prod.mk.injEq, getElem_range', Nat.one_mul] at heq
  obtain ⟨rfl, rfl⟩ := heq
  rw [length_zip, length_range', Nat.min_self] at hi
  refine live_eq_some.mpr ⟨?_, hr _ (getElem_mem hi)⟩
  rw [append_index, get_pushAll, if_neg (by omega), Nat.add_sub_cancel_left]
  exact getElem?_eq_getElem hi

end TopicState

/-! ## What recovery starts from -/

namespace TopicRun

/-- The topics recovery can start from, each with the number of frames before its position:
the fresh topic, and every snapshot. -/
def origins (S : Serde Blob) (spec : TopicSpec) (s : TopicRun Blob) : List (TopicState × Nat) :=
  (spec.fresh, 0) :: s.snapshots.map fun p => (restoreTopic S p.1 (p.1.config S), p.2)

/-- The topic replay builds on an origin from the frames behind its position. -/
def replayedFrom (S : Serde Blob) (clock : Int) (o : TopicState × Nat)
    (log : List (WalRecord Blob)) : TopicState :=
  (log.drop o.2).foldl (TopicState.replayOwn S clock) o.1

/-- No write and no snapshot while the class is `ephemeral`. -/
def PersistsRecords (s : TopicRun Blob) : TopicAction → Prop
  | .write .. => s.topic.config.durabilityClass ≠ .ephemeral
  | .snapshot .. => s.topic.config.durabilityClass ≠ .ephemeral
  | _ => True

instance (s : TopicRun Blob) : ∀ a, Decidable (PersistsRecords s a)
  | .write .. | .snapshot .. => inferInstanceAs (Decidable (_ ≠ _))
  | .diff .. | .topicState .. | .putTopic .. => isTrue trivial

/-- What the topic `R` rebuilt from the whole log shares with the live one.  `quiet` is the
case that no limit was ever set. -/
structure Shared (quiet : Prop) (s : TopicRun Blob) (R : TopicState) : Prop where
  seqBase : R.seqBase = seqBaseDefault
  tail : R.index.tail = R.headSeq + 1
  headSeq : R.headSeq = s.topic.headSeq
  config : R.config = s.topic.config
  acked : ∀ e ∈ s.acked, R.Holds e.2.1 e.2.2
  untouched : quiet → R.floors.top = 0

/-- What recovery builds on an origin, from the whole log and from its synced part. -/
structure Follows (S : Serde Blob) (clock : Int) (quiet : Prop) (s : TopicRun Blob)
    (o : TopicState × Nat) : Prop where
  name : o.1.name = s.topic.name
  topicId : o.1.topicId = s.topic.topicId
  pos : o.2 ≤ s.synced
  shared : Shared quiet s (replayedFrom S clock o s.log)
  synced : ∀ e ∈ s.acked, e.1 = .fsync →
    (replayedFrom S clock o (s.log.take s.synced)).Holds e.2.1 e.2.2

/-- The invariant of a run that persists its records. -/
structure Tracked (S : Serde Blob) (resolve : Nat → Value × Option Value) (clock : Int)
    (quiet : Prop) (spec : TopicSpec) (s : TopicRun Blob) : Prop where
  plain : s.topic.Plain
  name : s.topic.name = spec.name
  topicId : s.topic.topicId = spec.topicId
  bounded : s.synced ≤ s.log.length
  frames : ∀ f ∈ s.log, f.owned spec.name spec.topicId = true ∧ f.isDelete = false
  seqs : ∀ e ∈ s.acked, seqBaseDefault ≤ e.2.1
  stored : ∀ e ∈ s.acked, resolvedRecord resolve e.2.1 e.2.2 = e.2.2
  acked : ∀ e ∈ s.acked, s.topic.Holds e.2.1 e.2.2
  untouched : quiet → s.topic.config.limits = false ∧ s.topic.floors.top = 0
  follows : ∀ o ∈ origins S spec s, Follows S clock quiet s o

section Follows

variable {S : Serde Blob} {clock : Int} {quiet : Prop} {spec : TopicSpec}
  {resolve : Nat → Value × Option Value} {s s' : TopicRun Blob} {o : TopicState × Nat}

theorem replayedFrom_append {log : List (WalRecord Blob)} (h : o.2 ≤ log.length)
    (frames : List (WalRecord Blob)) :
    replayedFrom S clock o (log ++ frames) =
      frames.foldl (TopicState.replayOwn S clock) (replayedFrom S clock o log) := by
  unfold replayedFrom
  rw [drop_append_of_le_length h, foldl_append]

theorem Follows.extend (h : Follows S clock quiet s o) (hle : s.synced ≤ s.log.length)
    {frames : List (WalRecord Blob)} (hlog : s'.log = s.log ++ frames)
    (hname : s'.topic.name = s.topic.name) (hid : s'.topic.topicId = s.topic.topicId)
    (hsync : s'.synced = s'.log.length ∨
      s'.synced = s.synced ∧ ∀ e ∈ s'.acked, e.1 = .fsync → e ∈ s.acked)
    (hR : ∀ R, Shared quiet s R →
      Shared quiet s' (frames.foldl (TopicState.replayOwn S clock) R)) :
    Follows S clock quiet s' o := by
  have hpos : o.2 ≤ s.log.length := h.pos.trans hle
  have hshared : Shared quiet s' (replayedFrom S clock o s'.log) := by
    rw [hlog, replayedFrom_append hpos]
    exact hR _ h.shared
  refine ⟨h.name.trans hname.symm, h.topicId.trans hid.symm, ?_, hshared, ?_⟩
  · rcases hsync with hsync | ⟨hsync, -⟩
    · rw [hsync, hlog, length_append]
      omega
    · rw [hsync]
      exact h.pos
  · intro e he hcls
    rcases hsync with hsync | ⟨hsync, hold⟩
    · rw [hsync, take_length]
      exact hshared.acked e he
    · rw [hsync, hlog, take_append_of_le_length hle]
      exact h.synced e (hold e he hcls) hcls

/-! ## What the parts of a call replay to -/

/-- Floors, reservations and marks: frames that touch neither the records nor the config. -/
def marksOnly : WalRecord Blob → Bool
  | .evictWatermark .. => true
  | .headWatermark .. => true
  | .checkpointMark .. => true
  | _ => false

theorem replayOwn_of_marksOnly {R : TopicState} {f : WalRecord Blob} (hf : marksOnly f = true) :
    (R.replayOwn S clock f).index = R.index ∧ (R.replayOwn S clock f).headSeq = R.headSeq ∧
      (R.replayOwn S clock f).config = R.config := by
  cases f with
  | evictWatermark | checkpointMark => exact ⟨rfl, rfl, rfl⟩
  | headWatermark =>
    simp only [replayOwn, replay]
    split <;> exact ⟨rfl, rfl, rfl⟩
  | append | delete | topicConfig | lease | routerCreate | routerDelete => cases hf

theorem isDelete_of_marksOnly {f : WalRecord Blob} (hf : marksOnly f = true) :
    f.isDelete = false := by
  cases f with
  | delete => cases hf
  | _ => rfl

namespace Shared

variable {R : TopicState}

section

variable (h : Shared quiet s R)

include h

theorem mark (hseqs : ∀ e ∈ s.acked, seqBaseDefault ≤ e.2.1) {f : WalRecord Blob}
    (hf : marksOnly f = true) (hquiet : quiet → (R.replayOwn S clock f).floors = R.floors) :
    Shared quiet s (R.replayOwn S clock f) := by
  obtain ⟨hindex, hhead, hconfig⟩ : (R.replayOwn S clock f).index = R.index ∧ _ ∧ _ :=
    replayOwn_of_marksOnly hf
  refine ⟨(replayOwn_seqBase f).trans h.seqBase, ?_, hhead.trans h.headSeq,
    hconfig.trans h.config, fun e he => ?_, fun hq => ?_⟩
  · rw [hindex, hhead]
    exact h.tail
  · exact (h.acked e he).replayOwn (h.seqBase.trans_le (hseqs e he)) (isDelete_of_marksOnly hf)
  · rw [hquiet hq]
    exact h.untouched hq

theorem of_topic (hhead : s'.topic.headSeq = s.topic.headSeq)
    (hconfig : s'.topic.config = s.topic.config) (hacked : s'.acked = s.acked) :
    Shared quiet s' R :=
  ⟨h.seqBase, h.tail, h.headSeq.trans hhead.symm, h.config.trans hconfig.symm,
    by rw [hacked]; exact h.acked, h.untouched⟩

theorem retainFrames (hseqs : ∀ e ∈ s.acked, seqBaseDefault ≤ e.2.1) {L : TopicState}
    (hlimits : quiet → L.config.limits = false) (now : Int) :
    Shared quiet s ((Registry.retainFrames L now).foldl (TopicState.replayOwn S clock) R) := by
  unfold Registry.retainFrames
  split
  · rename_i hpass
    rw [foldl_cons, foldl_nil]
    apply h.mark hseqs
    · rfl
    · intro hq
      rw [retentionIdle_of_limits (hlimits hq)] at hpass
      cases hpass.2.1
  · exact h

theorem append (hS : S.RoundTrips) (hplain : s.topic.Plain)
    (hcls : s.topic.config.durabilityClass ≠ .ephemeral) (records : List RecordIn) {now : Int}
    (h0 : 0 ≤ now) (h1 : now < 2 ^ 63) {n : Nat}
    (htopic : s'.topic = ({ s.topic with reservedHead := n } : TopicState).append
      (records.map fun r => r.stored S now))
    (hacked : ∀ e ∈ s'.acked, e ∈ s.acked ∨ (e.2.1, e.2.2) ∈
      (range' s.topic.index.tail records.length).zip (records.map fun r => r.stored S now)) :
    Shared quiet s' ((appendFrames S s.topic.topicId now
        (s.topic.stageAppend (records.map fun r => r.stored S now)).2
        (records.map fun r => r.stored S now)).foldl (replayOwn S clock) R) := by
  have hp : R.config.usesPersistentRecordStore = true := by
    rw [h.config]
    exact bne_iff_ne.mpr hcls
  rw [foldl_replayOwn_batch hS clock records h0 h1 _ hp hplain.tail h.tail h.headSeq]
  have hhead : (R.append (records.map fun r => r.stored S now)).headSeq =
      R.headSeq + records.length := by
    rw [append_headSeq h.tail, length_map]
  have hlive : ({ s.topic with reservedHead := n } : TopicState).index.tail =
      ({ s.topic with reservedHead := n } : TopicState).headSeq + 1 := hplain.tail
  refine ⟨?_, ?_, ?_, ?_, fun e he => ?_, fun hq => ?_⟩
  · rw [append_seqBase]
    exact h.seqBase
  · rw [hhead, append_index, tail_pushAll, h.tail, length_map]
    omega
  · rw [hhead, htopic, append_headSeq hlive, length_map, h.headSeq]
  · rw [append_config, htopic, append_config]
    exact h.config
  · rcases hacked e he with he | he
    · exact (h.acked e he).append _
    · -- the replayed topic gives the batch the same seqs
      left
      have htail : R.index.tail = s.topic.index.tail := by
        rw [h.tail, h.headSeq, hplain.tail]
      refine live_append_of_mem (fun r hr => ?_) ?_
      · obtain ⟨r', -, rfl⟩ := mem_map.mp hr
        rfl
      · rw [htail, length_map]
        exact he
  · rw [append_floors]
    exact h.untouched hq

theorem setConfig (hS : S.RoundTrips) (hseqs : ∀ e ∈ s.acked, seqBaseDefault ≤ e.2.1)
    {c : TopicConfig} (hquiet : quiet → c.limits = false) (id ts : Nat) (name : String)
    (htopic : s'.topic = { s.topic with config := c }) (hacked : s'.acked = s.acked) :
    Shared quiet s' (R.replayOwn S clock (.topicConfig id ⟨name, S.configToVec c⟩ false ts)) := by
  have hframe : R.replayOwn S clock (.topicConfig id ⟨name, S.configToVec c⟩ false ts) =
      { R with config := c }.enforceRetention clock := by
    unfold replayOwn
    simp only [hS.config, getD_some]
  have hst := steady_enforceRetention { R with config := c } clock
  rw [hframe]
  refine ⟨hst.seqBase.trans h.seqBase, ?_, ?_, ?_, fun e he => ?_, fun hq => ?_⟩
  · rw [hst.tail, hst.headSeq]
    exact h.tail
  · rw [hst.headSeq, htopic]
    exact h.headSeq
  · rw [hst.config, htopic]
  · rw [hacked] at he
    exact TopicState.Holds.enforceRetention (b := { R with config := c }) (h.acked e he)
      (h.seqBase.trans_le (hseqs e he)) clock
  · have hidle : ({ R with config := c } : TopicState).retentionIdle = true :=
      retentionIdle_of_limits (hquiet hq)
    rw [enforceRetention_of_idle hidle]
    exact h.untouched hq

end

end Shared

/-! ## Along a run -/

namespace Tracked

theorem extend (h : Tracked S resolve clock quiet spec s) (frames : List (WalRecord Blob))
    (hlog : s'.log = s.log ++ frames)
    (hframes : ∀ f ∈ frames, f.owned spec.name spec.topicId = true ∧ f.isDelete = false)
    (hsnaps : s'.snapshots = s.snapshots) (hplain : s'.topic.Plain)
    (hname : s'.topic.name = s.topic.name) (hid : s'.topic.topicId = s.topic.topicId)
    (hentries : ∀ e ∈ s'.acked, e ∈ s.acked ∨
      seqBaseDefault ≤ e.2.1 ∧ resolvedRecord resolve e.2.1 e.2.2 = e.2.2)
    (hacked : ∀ e ∈ s'.acked, s'.topic.Holds e.2.1 e.2.2)
    (hquiet : quiet → s'.topic.config.limits = false ∧ s'.topic.floors.top = 0)
    (hsync : s'.synced = s'.log.length ∨
      s'.synced = s.synced ∧ ∀ e ∈ s'.acked, e.1 = .fsync → e ∈ s.acked)
    (hR : ∀ R, Shared quiet s R →
      Shared quiet s' (frames.foldl (TopicState.replayOwn S clock) R)) :
    Tracked S resolve clock quiet spec s' := by
  refine ⟨hplain, hname.trans h.name, hid.trans h.topicId, ?_, ?_, ?_, ?_, hacked, hquiet, ?_⟩
  · rcases hsync with hsync | ⟨hsync, -⟩
    · exact hsync.le
    · rw [hsync, hlog, length_append]
      exact h.bounded.trans (Nat.le_add_right _ _)
  · intro f hf
    rw [hlog] at hf
    exact (mem_append.mp hf).elim (h.frames f) (hframes f)
  · exact fun e he => (hentries e he).elim (h.seqs e) And.left
  · exact fun e he => (hentries e he).elim (h.stored e) And.right
  · intro o ho
    unfold origins at ho
    rw [hsnaps] at ho
    exact (h.follows o ho).extend h.bounded hlog hname hid hsync hR

theorem retain (h : Tracked S resolve clock quiet spec s) (now : Int) :
    Tracked S resolve clock quiet spec (s.retain now) := by
  have hst := steady_enforceRetention s.topic now
  have hholds : ∀ e ∈ s.acked, (s.topic.enforceRetention now).Holds e.2.1 e.2.2 := fun e he =>
    (h.acked e he).enforceRetention (h.plain.seqBase.trans_le (h.seqs e he)) now
  refine h.extend (retainFrames s.topic now) rfl ?_ rfl
    (h.plain.enforceRetention now) hst.name hst.topicId (fun e he => .inl he) hholds ?_ ?_ ?_
  · intro f hf
    refine ⟨?_, ?_⟩
    · rw [← h.topicId]
      exact owned_retainFrames s.topic now spec.name f hf
    · obtain ⟨_, _, _, _, rfl⟩ := mem_retainFrames hf
      rfl
  · intro hq
    obtain ⟨hlimits, htop⟩ := h.untouched hq
    change (s.topic.enforceRetention now).config.limits = false ∧
      (s.topic.enforceRetention now).floors.top = 0
    rw [enforceRetention_of_unlimited hlimits]
    exact ⟨hlimits, htop⟩
  · change (if _ then _ else _) = _ ∨ (if _ then _ else _) = _ ∧ _
    split
    · exact .inr ⟨rfl, fun e he _ => he⟩
    · exact .inl rfl
  · intro R hR
    refine Shared.of_topic (s := s) ?_ hst.headSeq hst.config rfl
    exact hR.retainFrames h.seqs (fun hq => (h.untouched hq).1) now

theorem mem_acked_appendBatch (stored : List StoredRecord) (now : Int)
    {e : Durability × Nat × StoredRecord} (he : e ∈ (s.appendBatch S stored now).acked) :
    e ∈ s.acked ∨ e.1 = s.topic.config.durabilityClass ∧
      (e.2.1, e.2.2) ∈ (List.range' s.topic.index.tail stored.length).zip stored := by
  rcases mem_append.mp he with he | he
  · exact .inl he
  · right
    rw [← map_uncurry_zip_eq_zipWith] at he
    obtain ⟨p, hp, rfl⟩ := mem_map.mp he
    exact ⟨rfl, hp⟩

theorem appendBatch_snapshots (s : TopicRun Blob) (stored : List StoredRecord) (now : Int) :
    (s.appendBatch S stored now).snapshots = s.snapshots := by
  unfold appendBatch
  simp only
  split
  · rfl
  · rfl
  · unfold ensureDiskHeadReserved
    split <;> rfl
  · rfl

theorem appendBatch_log (hcls : s.topic.config.durabilityClass ≠ .ephemeral)
    (stored : List StoredRecord) (now : Int) (hne : stored ≠ []) :
    ∃ marks : List (WalRecord Blob),
      (marks = [] ∨ ∃ n t, marks = [.headWatermark s.topic.topicId n t]) ∧
      (s.appendBatch S stored now).log = s.log ++ (appendFrames S s.topic.topicId now
        (s.topic.stageAppend stored).2 stored ++ marks) ∧
      ((s.appendBatch S stored now).synced = (s.appendBatch S stored now).log.length ∨
        (s.appendBatch S stored now).synced = s.synced ∧
          s.topic.config.durabilityClass ≠ .fsync) := by
  unfold appendBatch
  simp only
  cases hc : s.topic.config.durabilityClass with
  | ephemeral => exact absurd hc hcls
  | memory => exact ⟨[], .inl rfl, by simp, .inr ⟨rfl, nofun⟩⟩
  | disk =>
    simp only [ensureDiskHeadReserved]
    split
    · exact ⟨[], .inl rfl, by simp, .inr ⟨rfl, nofun⟩⟩
    · exact ⟨_, .inr ⟨_, _, rfl⟩, append_assoc .., .inl rfl⟩
  | fsync =>
    refine ⟨[], .inl rfl, by simp [logDurable], .inl ?_⟩
    have hframes : (appendFrames S s.topic.topicId now (s.topic.stageAppend stored).2
        stored).isEmpty = false := by
      cases stored with
      | nil => exact absurd rfl hne
      | cons r stored => rfl
    simp only [logDurable, hframes]
    rfl

section

variable (h : Tracked S resolve clock quiet spec s) (hS : S.RoundTrips)

include h hS

theorem appendBatch (hcls : s.topic.config.durabilityClass ≠ .ephemeral) {records : List RecordIn}
    (hne : records ≠ []) {now : Int} (h0 : 0 ≤ now) (h1 : now < 2 ^ 63) :
    Tracked S resolve clock quiet spec
      (s.appendBatch S (records.map fun r => r.stored S now) now) := by
  obtain ⟨n, htopic⟩ := appendBatch_topic (S := S) s (records.map fun r => r.stored S now) now
  obtain ⟨marks, hmarks, hlog, hsync⟩ := appendBatch_log (S := S) hcls
    (records.map fun r => r.stored S now) now (by simpa using hne)
  have hwhole : ∀ r ∈ records.map fun r => r.stored S now, r.deleted = false := by
    intro r hr
    obtain ⟨r', -, rfl⟩ := mem_map.mp hr
    rfl
  have hstaged : ∀ {e : Durability × Nat × StoredRecord},
      (e.2.1, e.2.2) ∈ (range' s.topic.index.tail (records.map fun r => r.stored S now).length).zip
        (records.map fun r => r.stored S now) →
      seqBaseDefault ≤ e.2.1 ∧ resolvedRecord resolve e.2.1 e.2.2 = e.2.2 := by
    intro e he
    obtain ⟨hseq, hrec⟩ := of_mem_zip he
    obtain ⟨r, -, hr⟩ := mem_map.mp hrec
    refine ⟨?_, by rw [← hr]; rfl⟩
    have := (mem_range'_1.mp hseq).1
    have := h.plain.base
    unfold TopicIndex.tail at *
    omega
  refine h.extend _ hlog ?_ (appendBatch_snapshots s _ now) ?_ ?_ ?_ ?_ ?_ ?_ ?_ ?_
  · intro f hf
    rcases mem_append.mp hf with hf | hf
    · refine ⟨?_, ?_⟩
      · rw [h.topicId] at hf
        exact owned_of_addresses (addresses_appendFrames now _ _ f hf)
      · unfold appendFrames at hf
        rw [← map_uncurry_zip_eq_zipWith] at hf
        obtain ⟨p, -, rfl⟩ := mem_map.mp hf
        rfl
    · rcases hmarks with rfl | ⟨m, t, rfl⟩
      · cases hf
      · cases mem_singleton.mp hf
        rw [h.topicId]
        exact ⟨beq_self_eq_true spec.topicId, rfl⟩
  · rw [htopic]
    exact (h.plain.setReserved n).append hwhole
  · rw [htopic, append_name]
  · rw [htopic, append_topicId]
  · exact fun e he => (mem_acked_appendBatch _ now he).imp_right fun hnew => hstaged hnew.2
  · intro e he
    rw [htopic]
    rcases mem_acked_appendBatch _ now he with hold | ⟨-, hnew⟩
    · exact TopicState.Holds.append (b := { s.topic with reservedHead := n }) (h.acked e hold) _
    · exact .inl (live_append_of_mem (b := { s.topic with reservedHead := n })
        hwhole hnew)
  · intro hq
    rw [htopic, append_config, append_floors]
    exact h.untouched hq
  · refine hsync.imp_right fun hkeep => ⟨hkeep.1, fun e he hfs => ?_⟩
    rcases mem_acked_appendBatch _ now he with hold | ⟨hcls', -⟩
    · exact hold
    · exact absurd (hcls'.symm.trans hfs) hkeep.2
  · intro R hR
    have happend : Shared quiet (s.appendBatch S (records.map fun r => r.stored S now) now)
        ((appendFrames S s.topic.topicId now
          (s.topic.stageAppend (records.map fun r => r.stored S now)).2
          (records.map fun r => r.stored S now)).foldl (replayOwn S clock) R) := by
      refine hR.append hS h.plain hcls records h0 h1 htopic fun e he => ?_
      have hnew := (mem_acked_appendBatch _ now he).imp_right And.right
      rw [length_map] at hnew
      exact hnew
    rw [foldl_append]
    rcases hmarks with rfl | ⟨m, t, rfl⟩
    · exact happend
    · rw [foldl_cons, foldl_nil]
      apply happend.mark
      · intro e he
        exact (mem_acked_appendBatch _ now he).elim (h.seqs e) fun hnew => (hstaged hnew.2).1
      · rfl
      · intro _
        simp only [replayOwn, replay]
        split <;> rfl

theorem write (hcls : s.topic.config.durabilityClass ≠ .ephemeral) {records : List RecordIn}
    (hne : records ≠ []) {now : Int} (h0 : 0 ≤ now) (h1 : now < 2 ^ 63) :
    Tracked S resolve clock quiet spec (s.write S records now) := by
  have hpass := h.retain now
  unfold TopicRun.write
  simp only
  split
  · exact hpass
  · refine (hpass.appendBatch hS ?_ hne h0 h1).retain now
    change (s.topic.enforceRetention now).config.durabilityClass ≠ _
    rw [(steady_enforceRetention s.topic now).config]
    exact hcls

theorem putTopic {c : TopicConfig} (hquiet : quiet → c.limits = false) (now : Int) :
    Tracked S resolve clock quiet spec (s.putTopic S c now) := by
  unfold TopicRun.putTopic
  refine Tracked.retain ?_ now
  refine h.extend [.topicConfig s.topic.topicId ⟨s.topic.name, S.configToVec c⟩ false
    now.toNat] rfl ?_ rfl (h.plain.setConfig c) rfl rfl (fun e he => .inl he) h.acked ?_
    (.inl rfl) fun R hR => ?_
  · intro f hf
    cases mem_singleton.mp hf
    refine ⟨?_, rfl⟩
    change (s.topic.name == spec.name && !false) = true
    rw [h.name, beq_self_eq_true]
    rfl
  · exact fun hq => ⟨hquiet hq, (h.untouched hq).2⟩
  · exact hR.setConfig hS h.seqs hquiet s.topic.topicId now.toNat s.topic.name rfl rfl

end

theorem tailLive_of_plain {b : TopicState} (h : b.Plain) : b.TailLive := by
  have htail := h.tail
  unfold TopicIndex.tail at htail
  by_cases hempty : b.index.records.length = 0
  · refine .inr ⟨fun q hq => ?_, by omega⟩
    rw [h.live_eq_get]
    unfold TopicIndex.get
    rw [if_pos (by omega)]
  · left
    rw [h.live_eq_get]
    unfold TopicIndex.get
    rw [if_neg (by omega), getElem?_eq_getElem (by omega)]
    rfl

section

variable (h : Tracked S resolve clock quiet spec s) (hS : S.RoundTrips)
  (hcls : s.topic.config.durabilityClass ≠ .ephemeral)

include h hS hcls

theorem shared_snapshotTopic : Shared quiet s (snapshotTopic S resolve s.topic) := by
  have hp : s.topic.config.usesPersistentRecordStore = true := bne_iff_ne.mpr hcls
  have hcap : captureTopic S resolve s.topic = _ := if_pos hp
  have hhead : (snapshotTopic S resolve s.topic).headSeq = s.topic.headSeq := by
    simp [snapshotTopic, restoreTopic, hcap]
  have hfloors : (snapshotTopic S resolve s.topic).floors = s.topic.floors := by
    simp [snapshotTopic, restoreTopic, hcap]
  refine ⟨rfl, ?_, hhead, config_captureTopic resolve hS, fun e he => ?_, fun hq => ?_⟩
  · rw [hhead]
    exact (tail_snapshotTopic resolve hS hp).mpr (tailLive_of_plain h.plain)
  · unfold TopicState.Holds
    rw [hfloors, live_snapshotTopic resolve hS hp]
    refine (h.acked e he).imp_left fun hlive => ?_
    rw [if_pos, hlive, map_some, h.stored e he]
    exact noStaged_of_tail_le h.plain.tail.le _ (by rw [hlive]; rfl)
  · rw [hfloors]
    exact (h.untouched hq).2

theorem follows_snapshot (hsynced : s.synced = s.log.length) (now : Int) :
    Follows S clock quiet (s.retain now)
      (snapshotTopic S resolve (s.retain now).topic, s.log.length) := by
  have hpass := h.retain now
  have hst := steady_enforceRetention s.topic now
  have hfresh := hpass.shared_snapshotTopic hS (by
    change (s.topic.enforceRetention now).config.durabilityClass ≠ _
    rw [hst.config]
    exact hcls)
  have hlog : (s.retain now).log = s.log ++ retainFrames s.topic now := rfl
  have hshared : Shared quiet (s.retain now) (replayedFrom S clock
      (snapshotTopic S resolve (s.retain now).topic, s.log.length) (s.retain now).log) := by
    unfold replayedFrom
    rw [hlog, drop_left]
    exact hfresh.retainFrames hpass.seqs (fun hq => (h.untouched hq).1) now
  have hall : (s.retain now).synced = (s.retain now).log.length := by
    change (if _ then _ else _) = _
    split
    · rename_i hnone
      rw [hlog, isEmpty_iff.mp hnone, append_nil]
      exact hsynced
    · rfl
  refine ⟨?_, ?_, ?_, hshared, fun e he _ => ?_⟩
  · simp only [snapshotTopic, restoreTopic, captureTopic]
    split <;> rfl
  · simp only [snapshotTopic, restoreTopic, captureTopic]
    split <;> rfl
  · rw [hall, hlog, length_append]
    exact Nat.le_add_right _ _
  · rw [hall, take_length]
    exact hshared.acked e he

theorem snapshot (now : Int) : Tracked S resolve clock quiet spec (s.snapshot S resolve now) := by
  have hmark : Tracked S resolve clock quiet spec
      (s.logDurable [.checkpointMark 0 now.toNat]) := by
    refine h.extend [.checkpointMark 0 now.toNat] rfl ?_ rfl h.plain rfl rfl
      (fun e he => .inl he) h.acked h.untouched (.inl rfl) fun R hR => ?_
    · intro f hf
      cases mem_singleton.mp hf
      exact ⟨rfl, rfl⟩
    · exact hR.of_topic rfl rfl rfl
  have hpass := hmark.retain now
  have hkeep : ∀ {o}, Follows S clock quiet
      ((s.logDurable [.checkpointMark 0 now.toNat]).retain now) o →
      Follows S clock quiet (s.snapshot S resolve now) o := fun hf =>
    { hf with shared := hf.shared.of_topic rfl rfl rfl }
  refine { hpass with follows := fun o ho => ?_ }
  rcases mem_cons.mp ho with rfl | ho
  · exact hkeep (hpass.follows _ mem_cons_self)
  · obtain ⟨p, hp, rfl⟩ := mem_map.mp ho
    rcases mem_append.mp hp with hp | hp
    · exact hkeep (hpass.follows _ (mem_cons_of_mem _ (mem_map_of_mem hp)))
    · cases mem_singleton.mp hp
      exact hkeep (hmark.follows_snapshot hS hcls rfl now)

end

section

variable (h : Tracked S resolve clock quiet spec s)

include h

theorem respond {responses : List Response} :
    Tracked S resolve clock quiet spec { s with responses := responses } := by
  refine { h with follows := fun o ho => ?_ }
  have hf := h.follows o ho
  exact { hf with shared := hf.shared.of_topic rfl rfl rfl }

/-- **One call.** -/
theorem step (hS : S.RoundTrips) {a : TopicAction} (hpersists : PersistsRecords s a)
    (hquiet : quiet → ∀ c now, a = .putTopic c now → c.limits = false)
    (hstep : s.step S resolve a = some s') : Tracked S resolve clock quiet spec s' := by
  cases a with
  | write records now =>
    obtain ⟨hok, ⟨⟩⟩ := ite_none_right_eq_some.mp hstep
    exact h.write hS hpersists hok.1 hok.2.1 hok.2.2
  | diff req now | topicState now =>
    cases hstep
    exact (h.retain now).respond
  | putTopic c now =>
    obtain ⟨-, ⟨⟩⟩ := ite_none_right_eq_some.mp hstep
    exact h.putTopic hS (fun hq => hquiet hq c now rfl) now
  | snapshot now =>
    cases hstep
    exact h.snapshot hS hpersists now

theorem recover (ho : o ∈ origins S spec s) {k : Nat} (hk : s.synced ≤ k) :
    ∃ b, o.1.recoverOnto S clock ((s.log.take k).drop o.2) = some b ∧
      (∀ e ∈ s.acked, e.1 = .fsync → b.Holds e.2.1 e.2.2) ∧ (quiet → b.floors.top = 0) := by
  have hf := h.follows o ho
  have hpos : o.2 ≤ (s.log.take s.synced).length := by
    rw [length_take, min_eq_left h.bounded]
    exact hf.pos
  -- what survives extends the synced part, and the log extends what survives
  have hgrow : replayedFrom S clock o (s.log.take k) =
      ((s.log.take k).drop s.synced).foldl (replayOwn S clock)
        (replayedFrom S clock o (s.log.take s.synced)) := by
    rw [← replayedFrom_append hpos]
    congr 1
    conv_lhs => rw [← take_append_drop s.synced (s.log.take k)]
    rw [take_take, min_eq_left hk]
  have hfull : replayedFrom S clock o s.log = (s.log.drop k).foldl (replayOwn S clock)
      (replayedFrom S clock o (s.log.take k)) := by
    rw [← replayedFrom_append, take_append_drop]
    rw [length_take]
    exact le_min (hf.pos.trans hk) (hf.pos.trans h.bounded)
  have hbase : o.1.seqBase = seqBaseDefault := by
    rw [← hf.shared.seqBase]
    exact (foldl_replayOwn_seqBase _).symm
  refine ⟨_, recoverOnto_eq S clock fun f hmem => ?_, fun e he hcls => ?_, fun hq => ?_⟩
  · rw [hf.name, hf.topicId, h.name, h.topicId]
    exact (h.frames f (mem_of_mem_take (mem_of_mem_drop hmem))).1
  · unfold TopicState.Holds
    rw [live_applyHeadWatermark, applyHeadWatermark_floors]
    change (replayedFrom S clock o (s.log.take k)).Holds e.2.1 e.2.2
    rw [hgrow]
    refine (hf.synced e he hcls).foldl_replayOwn ?_ fun f hmem => ?_
    · rw [replayedFrom, foldl_replayOwn_seqBase, hbase]
      exact h.seqs e he
    · exact (h.frames f (mem_of_mem_take (mem_of_mem_drop hmem))).2
  · rw [applyHeadWatermark_floors]
    refine Nat.le_zero.mp ?_
    rw [← hf.shared.untouched hq, hfull]
    exact top_le_foldl_replayOwn _

end

end Tracked

theorem tracked_init (spec : TopicSpec) (hquiet : quiet → spec.config.limits = false) :
    Tracked S resolve clock quiet spec (init spec) := by
  have hplain := plain_new spec.name spec.topicId spec.config
  have hnone : ∀ {P : Durability × Nat × StoredRecord → Prop},
      ∀ e ∈ (init spec : TopicRun Blob).acked, P e := fun e he => (not_mem_nil he).elim
  refine ⟨hplain, rfl, rfl, le_rfl, fun f hf => (not_mem_nil hf).elim, hnone, hnone, hnone,
    fun hq => ⟨hquiet hq, rfl⟩, fun o ho => ?_⟩
  cases mem_singleton.mp ho
  exact ⟨rfl, rfl, le_rfl, ⟨hplain.seqBase, hplain.tail, rfl, rfl, hnone, fun _ => rfl⟩,
    fun e he => (not_mem_nil he).elim⟩

end Follows

/-- After a crash that keeps what was synced, recovery from the start or from any snapshot
has `P` of every record acknowledged under `fsync`. -/
def FsyncRecovered (S : Serde Blob) (clock : Int) (spec : TopicSpec) (s : TopicRun Blob)
    (P : TopicState → Nat → StoredRecord → Prop) : Prop :=
  ∀ o ∈ origins S spec s, ∀ k, s.synced ≤ k →
    ∃ b, o.1.recoverOnto S clock ((s.log.take k).drop o.2) = some b ∧
      ∀ q r, (.fsync, q, r) ∈ s.acked → P b q r

def keepsUnlimited : TopicAction → Bool
  | .putTopic config _ => !config.limits
  | _ => true

/-- **Durability survives class changes**, in every history of writes, reads, snapshots and
config updates that persists its records: a record acknowledged under `fsync` is live at its
seq, or below a floor that recovery found or computed; without limits it is live. -/
theorem fsync_survives_class_changes {S : Serde Blob} (hS : S.RoundTrips)
    {resolve : Nat → Value × Option Value} {spec : TopicSpec} {as : List TopicAction}
    {s : TopicRun Blob} (halong : Along (step S resolve) PersistsRecords (init spec) as)
    (hrun : exec (step S resolve) (init spec) as = some s) (clock : Int) :
    FsyncRecovered S clock spec s TopicState.Holds ∧
      (spec.config.limits = false → (∀ a ∈ as, keepsUnlimited a = true) →
        FsyncRecovered S clock spec s fun b q r => b.index.live q = some r) := by
  have htracked : Tracked S resolve clock
      (spec.config.limits = false ∧ ∀ a ∈ as, keepsUnlimited a = true) spec s := by
    refine exec_invariant_along _ (fun s a s' h hC hstep => ?_)
      (tracked_init spec fun hq => hq.1)
      (halong.and_mem (P := fun a => a ∈ as) _ fun a ha => ha) hrun
    refine h.step hS hC.2 (fun hq c now ha => ?_) hstep
    have hkeeps := hq.2 a hC.1
    rw [ha] at hkeeps
    simpa [keepsUnlimited] using hkeeps
  refine ⟨fun o ho k hk => ?_, fun hlimits hall o ho k hk => ?_⟩
  · obtain ⟨b, hb, hacked, -⟩ := htracked.recover ho hk
    exact ⟨b, hb, fun q r he => hacked _ he rfl⟩
  · obtain ⟨b, hb, hacked, htop⟩ := htracked.recover ho hk
    refine ⟨b, hb, fun q r he => (hacked _ he rfl).resolve_right fun hq => ?_⟩
    -- no floor was ever raised, and the first seq is 1
    have hseq := htracked.seqs _ he
    have hzero := htop ⟨hlimits, hall⟩
    unfold seqBaseDefault at hseq
    simp only at hq hseq
    omega

/-! ### Concrete histories -/

/-- A config of the given class, without limits. -/
def classed (d : Durability) : TopicConfig := { durability := some d }

/-- Writes under every persistent class, a snapshot between them, and a stay in `ephemeral`
without writes. -/
def throughClasses : List TopicAction :=
  [.write [blank] 0, .putTopic (classed .memory) 0, .write [blank] 0, .snapshot 0,
    .putTopic (classed .disk) 0, .write [blank] 0, .putTopic (classed .ephemeral) 0,
    .putTopic (classed .fsync) 0, .write [blank] 0]

/-- A write under `ephemeral` between two under `fsync`. -/
def ephemeralWrite : List TopicAction :=
  [.write [blank] 0, .putTopic (classed .ephemeral) 0, .write [blank] 0,
    .putTopic (classed .fsync) 0, .write [blank] 0]

/-- A snapshot taken under `ephemeral`. -/
def ephemeralSnapshot : List TopicAction :=
  [.write [blank] 0, .putTopic (classed .ephemeral) 0, .snapshot 0, .putTopic (classed .fsync) 0]

theorem fsync_survives_class_changes_throughClasses :
    ∃ s, exec (step Serde.identity fun _ => (.null, none))
        (init ⟨"jobs", 1, classed .fsync, 0⟩) throughClasses = some s ∧
      s.acked.map (fun e => (e.1, e.2.1)) = [(.fsync, 1), (.memory, 2), (.disk, 3), (.fsync, 4)] ∧
      FsyncRecovered Serde.identity 0 ⟨"jobs", 1, classed .fsync, 0⟩ s
        fun b q r => b.index.live q = some r := by
  have halong : Along (step Serde.identity fun _ => (.null, none)) PersistsRecords
      (init ⟨"jobs", 1, classed .fsync, 0⟩) throughClasses := by decide
  have hall : ∀ a ∈ throughClasses, keepsUnlimited a = true := by decide
  refine ⟨_, rfl, by decide, ?_⟩
  exact (fsync_survives_class_changes Serde.identity_roundTrips halong rfl 0).2 rfl hall

theorem FsyncRecovered.isSome {S : Serde Blob} {clock : Int} {spec : TopicSpec}
    {s : TopicRun Blob} (h : FsyncRecovered S clock spec s fun b q r => b.index.live q = some r)
    {o : TopicState × Nat} (ho : o ∈ origins S spec s) (hsynced : s.synced ≤ s.log.length)
    {q : Nat} (hacked : ∃ r, (.fsync, q, r) ∈ s.acked) :
    ((o.1.recoverOnto S clock (s.log.drop o.2)).bind fun b => b.index.live q).isSome = true := by
  obtain ⟨b, hb, hlive⟩ := h o ho s.log.length hsynced
  obtain ⟨r, hr⟩ := hacked
  rw [take_length] at hb
  rw [hb, bind_some, hlive q r hr]
  rfl

/-- Two histories that end in class `fsync`.  The `ephemeral` record took seq 2 without a frame,
so replay drops the `fsync` record at seq 3 as a gap.  The snapshot taken under `ephemeral` has
no records, so recovery from it has lost the `fsync` record at seq 1. -/
theorem fsync_lost_by_class_changes :
    (∃ s, exec (step Serde.identity fun _ => (.null, none))
        (init ⟨"jobs", 1, classed .fsync, 0⟩) ephemeralWrite = some s ∧
      s.topic.config.durabilityClass = .fsync ∧ (s.topic.index.live 3).isSome = true ∧
      (∃ r, (.fsync, 3, r) ∈ s.acked) ∧
      ¬ FsyncRecovered Serde.identity 0 ⟨"jobs", 1, classed .fsync, 0⟩ s
        fun b q r => b.index.live q = some r) ∧
    (∃ s, exec (step Serde.identity fun _ => (.null, none))
        (init ⟨"jobs", 1, classed .fsync, 0⟩) ephemeralSnapshot = some s ∧
      s.topic.config.durabilityClass = .fsync ∧ (s.topic.index.live 1).isSome = true ∧
      (∃ r, (.fsync, 1, r) ∈ s.acked) ∧
      ¬ FsyncRecovered Serde.identity 0 ⟨"jobs", 1, classed .fsync, 0⟩ s
        fun b q r => b.index.live q = some r) := by
  refine ⟨⟨_, rfl, by decide, by decide, ?_, fun h => ?_⟩,
    ⟨_, rfl, by decide, by decide, ?_, fun h => ?_⟩⟩
  · exact ⟨_, mem_of_getElem? (i := 2) rfl⟩
  · exact absurd (h.isSome (q := 3) mem_cons_self (by decide)
      ⟨_, mem_of_getElem? (i := 2) rfl⟩) (by decide)
  · exact ⟨_, mem_of_getElem? (i := 0) rfl⟩
  · exact absurd (h.isSome (q := 1) (mem_cons_of_mem _ mem_cons_self) (by decide)
      ⟨_, mem_of_getElem? (i := 0) rfl⟩) (by decide)

end TopicRun

end Topics
