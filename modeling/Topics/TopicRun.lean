import Topics.RegistryReplay
import Topics.Retention

/-!
# One topic from call to call

The calls on one topic, one after another: `write` in any durability class, the reads
(`diff`, `topic_state`), `put_topic` updates, and snapshots, each with the frames it logs.
A crash keeps at least what was synced; recovery replays the log, from the start or on top of
a snapshot.
-/

namespace Topics

open Lib TopicState WritePath Registry List Option Engine

variable {Blob : Type}

/-! ## Admission -/

inductive AdmitDecision where
  | admits
  | reject
  deriving DecidableEq, Repr

/-- `eviction::admit`. -/
def evictionAdmit (discard : Discard) (capRecords capBytes currentRecords currentBytes incomingRecords
    incomingBytes : Nat) : AdmitDecision :=
  if discard = .old then .admits
  else if capRecords > 0 ∧ currentRecords + incomingRecords > capRecords then .reject
  else if capBytes > 0 ∧ currentBytes + incomingBytes > capBytes then .reject
  else .admits

/-- Whether `write` refuses the batch: larger than a whole cap, or no room for it. -/
def TopicState.refuses (b : TopicState) (records : List StoredRecord) : Bool :=
  let incomingBytes := (records.map (·.bytes)).sum
  let c := b.config
  decide (c.capBytes > 0 ∧ incomingBytes > c.capBytes ∧ c.discard = .reject) ||
    decide (c.capRecords > 0 ∧ records.length > c.capRecords ∧ c.discard = .reject) ||
    decide (evictionAdmit c.discard c.capRecords c.capBytes b.liveCount b.bytesRetained records.length
      incomingBytes = .reject)

/-! ## Calls -/

inductive Response where
  | diff (d : DiffResponse)
  | state (headSeq earliestSeq count bytes : Nat)

/-- The topic, its log behind the create frame, and what the results are about. -/
structure TopicRun (Blob : Type) where
  topic : TopicState
  log : List (WalRecord Blob)
  /-- How many frames an fsync has covered. -/
  synced : Nat
  /-- The snapshots taken, each with the number of frames before its recorded position. -/
  snapshots : List (SnapshotTopic Blob × Nat)
  /-- History: every acknowledged record with its seq and the class it was written under. -/
  acked : List (Durability × Nat × StoredRecord)
  /-- History: what the reads returned, in order. -/
  responses : List Response

inductive TopicAction where
  | write (records : List RecordIn) (now : Int)
  | diff (req : DiffRequest) (now : Int)
  | topicState (now : Int)
  | putTopic (config : TopicConfig) (now : Int)
  | snapshot (now : Int)

namespace TopicRun

def init (spec : TopicSpec) : TopicRun Blob := ⟨spec.fresh, [], 0, [], [], []⟩

def logDurable (s : TopicRun Blob) (frames : List (WalRecord Blob)) : TopicRun Blob :=
  { s with
    log := s.log ++ frames
    synced := if frames.isEmpty then s.synced else (s.log ++ frames).length }

/-- `enforce_retention_durable`. -/
def retain (s : TopicRun Blob) (now : Int) : TopicRun Blob :=
  { s.logDurable (retainFrames s.topic now) with
    topic := s.topic.enforceRetention now }

def ensureDiskHeadReserved (s : TopicRun Blob) (head : Nat) (now : Int) : TopicRun Blob :=
  if head < s.topic.reservedHead then s
  else
    let target := max head s.topic.reservedHead + diskHeadReserveAhead
    { s.logDurable [.headWatermark s.topic.topicId target now.toNat] with
      topic := s.topic.setReservedHead target }

section Step

variable (S : Serde Blob) (resolve : Nat → Value × Option Value)

/-- `write` behind its admission: the frames of the batch, the head reservation of a `disk`
topic, and the publish.  Only `fsync` frames are synced; an `ephemeral` topic logs none. -/
def appendBatch (s : TopicRun Blob) (stored : List StoredRecord) (now : Int) : TopicRun Blob :=
  let cls := s.topic.config.durabilityClass
  let g := (s.topic.stageAppend stored).2
  let frames := appendFrames S s.topic.topicId now g stored
  let logged := match cls with
    | .ephemeral => s
    | .memory => { s with log := s.log ++ frames }
    | .disk => { s with log := s.log ++ frames }.ensureDiskHeadReserved g.publishHead now
    | .fsync => s.logDurable frames
  { logged with
    topic := logged.topic.append stored
    acked := s.acked ++ List.zipWith (fun q r => (cls, q, r)) g.seqs stored }

/-- `write`: retention, admission, the append, and retention again. -/
def write (s : TopicRun Blob) (records : List RecordIn) (now : Int) : TopicRun Blob :=
  let stored := records.map fun r => r.stored S now
  let s := s.retain now
  if s.topic.refuses stored then s else (s.appendBatch S stored now).retain now

/-- `put_topic` on the registered topic. -/
def putTopic (s : TopicRun Blob) (config : TopicConfig) (now : Int) : TopicRun Blob :=
  let s := s.logDurable
    [.topicConfig s.topic.topicId ⟨s.topic.name, S.configToVec config⟩ false now.toNat]
  { s with topic := { s.topic with config := config } }.retain now

/-- `capture` of the only topic: the flush barrier, the position, then retention and the
topic. -/
def snapshot (s : TopicRun Blob) (now : Int) : TopicRun Blob :=
  let s := s.logDurable [.checkpointMark 0 now.toNat]
  let position := s.log.length
  let s := s.retain now
  { s with snapshots := s.snapshots ++ [(captureTopic S resolve s.topic, position)] }

/-- One call.  The clock reads milliseconds since the epoch as an `i64`; the type of a topic
is immutable. -/
def step (s : TopicRun Blob) : TopicAction → Option (TopicRun Blob)
  | .write records now =>
    if records ≠ [] ∧ 0 ≤ now ∧ now < 2 ^ 63 then some (s.write S records now) else none
  | .diff req now =>
    let s := s.retain now
    some { s with responses := s.responses ++ [.diff (s.topic.diff resolve req now)] }
  | .topicState now =>
    let s := s.retain now
    some { s with
      responses := s.responses ++
        [.state s.topic.headSeq s.topic.earliestSeq s.topic.liveCount s.topic.bytesRetained] }
  | .putTopic config now =>
    if config.topicType = s.topic.config.topicType then some (s.putTopic S config now) else none
  | .snapshot now => some (s.snapshot S resolve now)

end Step

end TopicRun

/-! ## Recovery of one topic -/

/-- `replay_frame` on the frames of the only registered topic. -/
def TopicState.replayOwn (S : Serde Blob) (now : Int) (b : TopicState) :
    WalRecord Blob → TopicState
  | .topicConfig _ op _ _ =>
    { b with config := (S.configFromSlice op.config).getD {} }.enforceRetention now
  | f => b.replay S f

/-- Whether the frame is one of the topic's own: addressed to it, a config under its name, or
the mark of a flush barrier. -/
def WalRecord.owned (name : String) (id : Nat) : WalRecord Blob → Bool
  | .topicConfig _ op tombstone _ => op.name == name && !tombstone
  | .checkpointMark .. => true
  | f => f.addresses id

/-- Recovery of a topic that is already there, from its create frame or from a snapshot. -/
def TopicState.recoverOnto (S : Serde Blob) (now : Int) (b : TopicState)
    (frames : List (WalRecord Blob)) : Option TopicState :=
  (frames.foldl (Engine.replayFrame S now)
    ⟨[b], RouterGraph.empty, b.topicId + 1⟩).applyHeadWatermarks.getTopicById b.topicId

section Recover

variable (S : Serde Blob)

variable {b : TopicState} {frames : List (WalRecord Blob)}

theorem Engine.replayFrame_own (g : RouterGraph) (n : Nat) (now : Int) {f : WalRecord Blob}
    (hf : f.owned b.name b.topicId = true) :
    Engine.replayFrame S now ⟨[b], g, n⟩ f = ⟨[b.replayOwn S now f], g, n⟩ := by
  cases f with
  | topicConfig id op tombstone ts =>
    obtain ⟨hname, htomb⟩ := Bool.and_eq_true_iff.mp hf
    have hname : op.name = b.name := beq_iff_eq.mp hname
    have htomb : tombstone = false := by simpa using htomb
    subst htomb
    simp [replayFrame, applyPutTopic, getTopic, modifyFirst, hname, replayOwn]
  | checkpointMark => rfl
  | append | delete | evictWatermark | lease | headWatermark =>
    exact replayFrame_singleton S rfl g n now hf
  | routerCreate | routerDelete => cases hf

theorem TopicState.replayOwn_name (now : Int) (b : TopicState) (f : WalRecord Blob) :
    (b.replayOwn S now f).name = b.name := by
  cases f with
  | topicConfig => exact (steady_enforceRetention _ now).name
  | _ => exact replay_name S b _

theorem TopicState.replayOwn_topicId (now : Int) (b : TopicState) (f : WalRecord Blob) :
    (b.replayOwn S now f).topicId = b.topicId := by
  cases f with
  | topicConfig => exact (steady_enforceRetention _ now).topicId
  | _ => exact replay_topicId S b _

theorem Engine.foldl_replayFrame_own (g : RouterGraph) (n : Nat) (now : Int)
    (hf : ∀ f ∈ frames, f.owned b.name b.topicId = true) :
    frames.foldl (Engine.replayFrame S now) ⟨[b], g, n⟩ =
      ⟨[frames.foldl (replayOwn S now) b], g, n⟩ := by
  induction frames generalizing b with
  | nil => rfl
  | cons f frames ih =>
    rw [foldl_cons, replayFrame_own S g n now (hf f mem_cons_self), foldl_cons]
    refine ih fun f' hf' => ?_
    rw [replayOwn_name, replayOwn_topicId]
    exact hf f' (mem_cons_of_mem f hf')

theorem TopicState.foldl_replayOwn_topicId (now : Int) (b : TopicState)
    (frames : List (WalRecord Blob)) :
    (frames.foldl (replayOwn S now) b).topicId = b.topicId := by
  induction frames generalizing b with
  | nil => rfl
  | cons f frames ih => exact (ih _).trans (replayOwn_topicId S now b f)

/-- **Recovery of a topic from its own frames** is their fold, with the head reconciled. -/
theorem TopicState.recoverOnto_eq (now : Int) (hf : ∀ f ∈ frames, f.owned b.name b.topicId = true) :
    b.recoverOnto S now frames =
      some (frames.foldl (replayOwn S now) b).applyHeadWatermark := by
  unfold recoverOnto
  rw [foldl_replayFrame_own S _ _ now hf]
  simp only [applyHeadWatermarks, getTopicById, map_cons, map_nil]
  rw [find?_cons_of_pos]
  apply decide_eq_true
  rw [applyHeadWatermark_topicId]
  exact foldl_replayOwn_topicId S now b frames

theorem TopicSpec.recover_eq_recoverOnto (hS : S.RoundTrips) (spec : TopicSpec) (now : Int)
    (frames : List (WalRecord Blob)) :
    spec.recover S now frames = spec.fresh.recoverOnto S now frames := by
  have hcreate : replayFrame S now empty (spec.createFrame S) =
      ⟨[spec.fresh], RouterGraph.empty, max 1 (spec.topicId + 1)⟩ := by
    simp [replayFrame, applyPutTopic, getTopic, empty, hS.config,
      TopicSpec.createFrame, TopicSpec.fresh]
  unfold recover Engine.recover recoverOnto
  rw [foldl_cons, hcreate, max_eq_right (Nat.le_add_left 1 spec.topicId)]
  rfl

end Recover

/-! ## The frames of a pass -/

variable {b : TopicState} {S : Serde Blob} {now : Int}

theorem TopicState.of_retentionIdle (h : b.retentionIdle = true) :
    b.headSeq = 0 ∨ b.config.limits = false := by
  rcases Bool.or_eq_true_iff.mp h with h | h
  · exact .inl (beq_iff_eq.mp h)
  · right
    unfold TopicConfig.limits
    simpa [and_assoc] using h

theorem retainFrames_eq (hp : b.config.usesPersistentRecordStore = true)
    (hidle : b.retentionIdle = false) (now : Int) :
    (retainFrames b now : List (WalRecord Blob)) =
      if (b.planRetention now).durableAdvance then
        [.evictWatermark b.topicId (b.planRetention now).evictFloor
          (b.planRetention now).expiryFloor
          (max (b.planRetention now).evictFloor (b.planRetention now).expiryFloor + 1) now.toNat]
      else [] := by
  unfold retainFrames
  by_cases hd : (b.planRetention now).durableAdvance = true
  · have hadv : (b.planRetention now).floorAdvanced = true := by
      rcases Bool.or_eq_true_iff.mp hd with h | h
      · exact Bool.or_eq_true_iff.mpr (.inl (Bool.or_eq_true_iff.mpr (.inl h)))
      · exact Bool.or_eq_true_iff.mpr (.inr h)
    rw [if_pos ⟨hp, hidle, hadv, hd⟩, if_pos hd]
  · rw [if_neg fun h => hd h.2.2.2, if_neg hd]

theorem retainFrames_of_idle (hidle : b.retentionIdle = true) (now : Int) :
    (retainFrames b now : List (WalRecord Blob)) = [] := by
  unfold retainFrames
  rw [if_neg]
  rintro ⟨-, h, -⟩
  rw [hidle] at h
  cases h

/-! ## The frames of a batch -/

theorem TopicState.replayOwn_appendFrames (hS : S.RoundTrips) (clock : Int) (h0 : 0 ≤ now)
    (h1 : now < 2 ^ 63) (id : Nat) (records : List RecordIn)
    (hp : b.config.usesPersistentRecordStore = true) (hdense : b.index.tail = b.headSeq + 1) :
    (List.zipWith (appendFrame S id now)
        (List.range' (b.headSeq + 1) records.length) (records.map fun r => r.stored S now)).foldl
      (replayOwn S clock) b = b.append (records.map fun r => r.stored S now) := by
  have hown : ∀ (b : TopicState) (f : WalRecord Blob), f.appendSeq? ≠ none →
      b.replayOwn S clock f = b.replay S f := by
    intro b f hf
    cases f with
    | append => rfl
    | _ => exact absurd rfl hf
  have hbatch := foldl_appendFrames hown id now (records.map fun r => r.stored S now) hp hdense
  rw [length_map, map_replayedRecord_stored hS h0 h1] at hbatch
  exact hbatch

/-! ## The topic behind a batch -/

namespace TopicRun

theorem appendBatch_topic {S : Serde Blob} (s : TopicRun Blob) (stored : List StoredRecord)
    (now : Int) :
    ∃ n, (s.appendBatch S stored now).topic =
      ({ s.topic with reservedHead := n } : TopicState).append stored := by
  unfold appendBatch
  simp only
  split
  · exact ⟨s.topic.reservedHead, rfl⟩
  · exact ⟨s.topic.reservedHead, rfl⟩
  · unfold ensureDiskHeadReserved
    split
    · exact ⟨s.topic.reservedHead, rfl⟩
    · exact ⟨_, rfl⟩
  · exact ⟨s.topic.reservedHead, rfl⟩

theorem appendBatch_responses {S : Serde Blob} (s : TopicRun Blob) (stored : List StoredRecord)
    (now : Int) : (s.appendBatch S stored now).responses = s.responses := by
  unfold appendBatch
  simp only
  split
  · rfl
  · rfl
  · unfold ensureDiskHeadReserved
    split <;> rfl
  · rfl

/-! ## The frames a call adds -/

/-- A call adds frames with the property `P`, and syncs only frames that are there. -/
structure Adds (P : WalRecord Blob → Prop) (s s' : TopicRun Blob) : Prop where
  log : ∃ frames, s'.log = s.log ++ frames ∧ ∀ f ∈ frames, P f
  synced : s.synced ≤ s.log.length → s.synced ≤ s'.synced ∧ s'.synced ≤ s'.log.length
  unsynced : (∀ f ∈ s.log.drop s.synced, P f) → ∀ f ∈ s'.log.drop s'.synced, P f

namespace Adds

variable {P : WalRecord Blob → Prop} {s s' s'' : TopicRun Blob}

theorem of_log_eq (hlog : s'.log = s.log) (hsync : s'.synced = s.synced) : Adds P s s' := by
  refine ⟨⟨[], by rw [hlog, append_nil], forall_mem_nil _⟩, fun hle => ?_, ?_⟩
  · rw [hlog, hsync]
    exact ⟨le_rfl, hle⟩
  · rw [hlog, hsync]
    exact id

theorem trans (h : Adds P s s') (h' : Adds P s' s'') : Adds P s s'' := by
  obtain ⟨frames, hlog, hP⟩ := h.log
  obtain ⟨frames', hlog', hP'⟩ := h'.log
  refine ⟨⟨frames ++ frames', by rw [hlog', hlog, append_assoc],
    forall_mem_append.mpr ⟨hP, hP'⟩⟩, fun hle => ?_, fun ht => h'.unsynced (h.unsynced ht)⟩
  have h₁ := h.synced hle
  have h₂ := h'.synced h₁.2
  exact ⟨h₁.1.trans h₂.1, h₂.2⟩

section

variable {frames : List (WalRecord Blob)} (hP : ∀ f ∈ frames, P f)

include hP

theorem logLazy : Adds P s { s with log := s.log ++ frames } := by
  refine ⟨⟨frames, rfl, hP⟩, fun hle => ⟨le_rfl, by simp; omega⟩, fun ht f hf => ?_⟩
  rw [drop_append] at hf
  exact (mem_append.mp hf).elim (ht f) fun hf => hP f (mem_of_mem_drop hf)

theorem logDurable : Adds P s (s.logDurable frames) := by
  cases frames with
  | nil => exact of_log_eq (append_nil _) rfl
  | cons f frames =>
    refine ⟨⟨_, rfl, hP⟩, fun hle => ⟨by simp [TopicRun.logDurable]; omega, le_rfl⟩, fun _ => ?_⟩
    simp only [TopicRun.logDurable, isEmpty_cons, Bool.false_eq_true, if_false, drop_length]
    exact forall_mem_nil _

end

theorem retain (s : TopicRun Blob) (now : Int)
    (hP : ∀ id evict expiry earliest ts, P (.evictWatermark id evict expiry earliest ts)) :
    Adds P s (s.retain now) := by
  refine (logDurable fun f hf => ?_).trans (of_log_eq rfl rfl)
  obtain ⟨_, _, _, _, rfl⟩ := mem_retainFrames hf
  exact hP ..

theorem appendBatch (s : TopicRun Blob) (stored : List StoredRecord) (now : Int)
    (hP : ∀ f ∈ appendFrames S s.topic.topicId now (s.topic.stageAppend stored).2 stored, P f)
    (hmark : ∀ n ts, P (.headWatermark s.topic.topicId n ts)) :
    Adds P s (s.appendBatch S stored now) := by
  have hput : ∀ (s' : TopicRun Blob) (b : TopicState) acked, Adds P s s' →
      Adds P s { s' with topic := b, acked := acked } :=
    fun s' b acked h => h.trans (of_log_eq rfl rfl)
  unfold TopicRun.appendBatch
  refine hput _ _ _ ?_
  split
  · exact of_log_eq rfl rfl
  · exact logLazy hP
  · refine (logLazy hP).trans ?_
    unfold ensureDiskHeadReserved
    split
    · exact of_log_eq rfl rfl
    · exact (logDurable (forall_mem_singleton.mpr (hmark _ _))).trans (of_log_eq rfl rfl)
  · exact logDurable hP

end Adds

/-! ## The live topic and its replay along a run -/

theorem foldl_replayOwn_batch {S : Serde Blob} (hS : S.RoundTrips) (clock : Int)
    (records : List RecordIn) {now : Int} (h0 : 0 ≤ now) (h1 : now < 2 ^ 63) (id : Nat)
    {L R : TopicState} (hp : R.config.usesPersistentRecordStore = true)
    (hL : L.index.tail = L.headSeq + 1) (hR : R.index.tail = R.headSeq + 1)
    (hhead : R.headSeq = L.headSeq) :
    (appendFrames S id now (L.stageAppend (records.map fun r => r.stored S now)).2
        (records.map fun r => r.stored S now)).foldl (replayOwn S clock) R =
      R.append (records.map fun r => r.stored S now) := by
  have hreplay := replayOwn_appendFrames hS clock h0 h1 id records hp hR
  have hseqs : (L.stageAppend (records.map fun r => r.stored S now)).2.seqs =
      range' (R.headSeq + 1) records.length := by
    change range' L.index.tail (records.map _).length = _
    rw [hL, hhead, length_map]
  unfold appendFrames
  rw [hseqs]
  exact hreplay

/-- The call leaves the topic in class `fsync`. -/
def keepsFsync : TopicAction → Bool
  | .putTopic config _ => config.durabilityClass = .fsync
  | _ => true

theorem persistent_of_fsync {c : TopicConfig} (h : c.durabilityClass = .fsync) :
    c.usesPersistentRecordStore = true := by
  unfold TopicConfig.usesPersistentRecordStore
  rw [h]
  rfl

def replayed (S : Serde Blob) (clock : Int) (spec : TopicSpec) (s : TopicRun Blob) : TopicState :=
  s.log.foldl (replayOwn S clock) spec.fresh

/-- `Q` relates a log, the live topic, and the topic replay builds from the log at `clock`;
each part of a call keeps it, a config update under the condition `C`. -/
structure Mirrors (S : Serde Blob) (clock : Int)
    (C : List (WalRecord Blob) → TopicState → TopicConfig → Prop)
    (Q : List (WalRecord Blob) → TopicState → TopicState → Prop) : Prop where
  retain : ∀ {log : List (WalRecord Blob)} {L R : TopicState} (now : Int),
    L.config.durabilityClass = .fsync → Q log L R →
      Q (log ++ retainFrames L now) (L.enforceRetention now)
        ((retainFrames L now).foldl (replayOwn S clock) R)
  append : ∀ {log : List (WalRecord Blob)} {L R : TopicState} (records : List RecordIn)
    {now : Int}, 0 ≤ now → now < 2 ^ 63 → L.config.durabilityClass = .fsync → Q log L R →
      let stored := records.map fun r => r.stored S now
      let frames := appendFrames S L.topicId now (L.stageAppend stored).2 stored
      Q (log ++ frames) (L.append stored) (frames.foldl (replayOwn S clock) R)
  config : ∀ {log : List (WalRecord Blob)} {L R : TopicState} (c : TopicConfig) (ts : Nat)
    (now : Int), c.durabilityClass = .fsync → C log L c → Q log L R →
      let swapped := { L with config := c }
      Q (log ++ [.topicConfig L.topicId ⟨L.name, S.configToVec c⟩ false ts] ++
          retainFrames swapped now)
        (swapped.enforceRetention now)
        ((retainFrames swapped now).foldl (replayOwn S clock)
          ({ R with config := c }.enforceRetention clock))
  mark : ∀ {log : List (WalRecord Blob)} {L R : TopicState} (ts : Nat),
    Q log L R → Q (log ++ [.checkpointMark 0 ts]) L R

/-- The invariant of a run that stays in class `fsync`. -/
structure Mirrored (S : Serde Blob) (clock : Int) (spec : TopicSpec)
    (Q : List (WalRecord Blob) → TopicState → TopicState → Prop) (s : TopicRun Blob) : Prop where
  name : s.topic.name = spec.name
  topicId : s.topic.topicId = spec.topicId
  fsync : s.topic.config.durabilityClass = .fsync
  owned : ∀ f ∈ s.log, f.owned spec.name spec.topicId = true
  related : Q s.log s.topic (s.replayed S clock spec)

section Mirrors

variable {S : Serde Blob} {clock : Int} {spec : TopicSpec}
  {resolve : Nat → Value × Option Value}
  {C : List (WalRecord Blob) → TopicState → TopicConfig → Prop}
  {Q : List (WalRecord Blob) → TopicState → TopicState → Prop} {s s' : TopicRun Blob}

theorem replayed_append {frames : List (WalRecord Blob)} (h : s'.log = s.log ++ frames) :
    s'.replayed S clock spec =
      frames.foldl (replayOwn S clock) (s.replayed S clock spec) := by
  unfold replayed
  rw [h, foldl_append]

theorem owned_append {name : String} {id : Nat} {log frames : List (WalRecord Blob)}
    (h : ∀ f ∈ log, f.owned name id = true) (h' : ∀ f ∈ frames, f.owned name id = true) :
    ∀ f ∈ log ++ frames, f.owned name id = true :=
  fun f hf => (mem_append.mp hf).elim (h f) (h' f)

theorem owned_retainFrames (b : TopicState) (now : Int) (name : String) :
    ∀ f ∈ (retainFrames b now : List (WalRecord Blob)),
      f.owned name b.topicId = true := by
  intro f hf
  obtain ⟨_, _, _, _, rfl⟩ := mem_retainFrames hf
  exact beq_self_eq_true b.topicId

theorem owned_of_addresses {name : String} {id : Nat} {f : WalRecord Blob}
    (h : f.addresses id = true) : f.owned name id = true := by
  cases f with
  | topicConfig => cases h
  | checkpointMark => rfl
  | _ => exact h

theorem Mirrored.retain (hQ : Mirrors S clock C Q) (h : Mirrored S clock spec Q s) (now : Int) :
    Mirrored S clock spec Q (s.retain now) := by
  have hst := steady_enforceRetention s.topic now
  have hlog : (s.retain now).log = s.log ++ retainFrames s.topic now := rfl
  refine ⟨hst.name.trans h.name, hst.topicId.trans h.topicId, ?_, ?_, ?_⟩
  · change (s.topic.enforceRetention now).config.durabilityClass = _
    rw [hst.config]
    exact h.fsync
  · rw [hlog]
    refine owned_append h.owned ?_
    rw [← h.topicId]
    exact owned_retainFrames s.topic now spec.name
  · rw [replayed_append hlog, hlog]
    exact hQ.retain now h.fsync h.related

theorem appendBatch_of_fsync (hfs : s.topic.config.durabilityClass = .fsync)
    (stored : List StoredRecord) (now : Int) :
    s.appendBatch S stored now =
      { s.logDurable (appendFrames S s.topic.topicId now (s.topic.stageAppend stored).2
          stored) with
        topic := s.topic.append stored
        acked := s.acked ++ zipWith (fun q r => (Durability.fsync, q, r))
          (s.topic.stageAppend stored).2.seqs stored } := by
  unfold TopicRun.appendBatch
  simp only [hfs]
  rfl

theorem Mirrored.appendBatch (hQ : Mirrors S clock C Q) (h : Mirrored S clock spec Q s)
    (records : List RecordIn) {now : Int} (h0 : 0 ≤ now) (h1 : now < 2 ^ 63) :
    Mirrored S clock spec Q (s.appendBatch S (records.map fun r => r.stored S now) now) := by
  rw [appendBatch_of_fsync h.fsync]
  refine ⟨?_, ?_, ?_, ?_, ?_⟩
  · exact (append_name _ _).trans h.name
  · exact (append_topicId _ _).trans h.topicId
  · simp only [append_config]
    exact h.fsync
  · refine owned_append h.owned fun f hf => ?_
    rw [h.topicId] at hf
    exact owned_of_addresses (addresses_appendFrames now _ _ f hf)
  · rw [replayed_append (s := s) rfl]
    exact hQ.append records h0 h1 h.fsync h.related

theorem Mirrored.write (hQ : Mirrors S clock C Q) (h : Mirrored S clock spec Q s)
    (records : List RecordIn) {now : Int} (h0 : 0 ≤ now) (h1 : now < 2 ^ 63) :
    Mirrored S clock spec Q (s.write S records now) := by
  have hpass := h.retain hQ now
  unfold TopicRun.write
  simp only
  split
  · exact hpass
  · exact (hpass.appendBatch hQ records h0 h1).retain hQ now

theorem Mirrored.putTopic (hS : S.RoundTrips) (hQ : Mirrors S clock C Q)
    (h : Mirrored S clock spec Q s) {c : TopicConfig} (hfs : c.durabilityClass = .fsync)
    (hC : C s.log s.topic c) (now : Int) : Mirrored S clock spec Q (s.putTopic S c now) := by
  have hst := steady_enforceRetention { s.topic with config := c } now
  have hframe : replayOwn S clock (s.replayed S clock spec)
      (.topicConfig s.topic.topicId ⟨s.topic.name, S.configToVec c⟩ false now.toNat) =
      { s.replayed S clock spec with config := c }.enforceRetention clock := by
    unfold replayOwn
    simp only [hS.config, getD_some]
  have hlog : (s.putTopic S c now).log =
      s.log ++ [.topicConfig s.topic.topicId ⟨s.topic.name, S.configToVec c⟩ false now.toNat] ++
        retainFrames { s.topic with config := c } now := rfl
  refine ⟨hst.name.trans h.name, hst.topicId.trans h.topicId, ?_, ?_, ?_⟩
  · change ({ s.topic with config := c }.enforceRetention now).config.durabilityClass = _
    rw [hst.config]
    exact hfs
  · rw [hlog]
    refine owned_append (owned_append h.owned fun f hf => ?_) ?_
    · cases mem_singleton.mp hf
      change (s.topic.name == spec.name && !false) = true
      rw [h.name, beq_self_eq_true]
      rfl
    · rw [← h.topicId]
      exact owned_retainFrames { s.topic with config := c } now spec.name
  · rw [replayed_append (hlog.trans (append_assoc ..)), singleton_append,
      foldl_cons, hframe, hlog]
    exact hQ.config c now.toNat now hfs hC h.related

theorem Mirrored.snapshot (hQ : Mirrors S clock C Q) (h : Mirrored S clock spec Q s) (now : Int) :
    Mirrored S clock spec Q (s.snapshot S resolve now) := by
  have hmark : Mirrored S clock spec Q (s.logDurable [.checkpointMark 0 now.toNat]) := by
    refine { h with owned := ?_, related := ?_ }
    · refine owned_append h.owned fun f hf => ?_
      cases mem_singleton.mp hf
      rfl
    · rw [replayed_append (s := s) rfl]
      exact hQ.mark now.toNat h.related
  have hpass := hmark.retain hQ now
  exact { hpass with }

/-- **One call.** -/
theorem Mirrored.step (hS : S.RoundTrips) (hQ : Mirrors S clock C Q)
    (h : Mirrored S clock spec Q s) {a : TopicAction} (hfs : keepsFsync a = true)
    (hC : ∀ c now, a = .putTopic c now → C s.log s.topic c)
    (hstep : s.step S resolve a = some s') : Mirrored S clock spec Q s' := by
  cases a with
  | write records now =>
    obtain ⟨hok, ⟨⟩⟩ := ite_none_right_eq_some.mp hstep
    exact h.write hQ records hok.2.1 hok.2.2
  | diff req now | topicState now =>
    cases hstep
    have hpass := h.retain hQ now
    exact { hpass with }
  | putTopic c now =>
    obtain ⟨-, ⟨⟩⟩ := ite_none_right_eq_some.mp hstep
    exact h.putTopic hS hQ (of_decide_eq_true hfs) (hC c now rfl) now
  | snapshot now =>
    cases hstep
    exact h.snapshot hQ now

def OnUpdates (C : List (WalRecord Blob) → TopicState → TopicConfig → Prop) (s : TopicRun Blob) :
    TopicAction → Prop
  | .putTopic c _ => C s.log s.topic c
  | _ => True

instance [∀ log L c, Decidable (C log L c)] (s : TopicRun Blob) : ∀ a, Decidable (OnUpdates C s a)
  | .putTopic c _ => inferInstanceAs (Decidable (C s.log s.topic c))
  | .write .. | .diff .. | .topicState .. | .snapshot .. => isTrue trivial

/-- **Simulation along a run**: what holds of the fresh topic and is kept by each part of a
call holds between the live topic and its replay after every run. -/
theorem Mirrors.exec (hS : S.RoundTrips) (hQ : Mirrors S clock C Q)
    (hfs : spec.config.durabilityClass = .fsync) (hinit : Q [] spec.fresh spec.fresh)
    {as : List TopicAction} (hclass : ∀ a ∈ as, keepsFsync a = true)
    (halong : Along (TopicRun.step S resolve) (OnUpdates C) (TopicRun.init spec) as)
    (hrun : Lib.exec (TopicRun.step S resolve) (TopicRun.init spec) as = some s) :
    Mirrored S clock spec Q s := by
  have h0 : Mirrored S clock spec Q (TopicRun.init spec) :=
    ⟨rfl, rfl, hfs, fun f hf => (not_mem_nil hf).elim, hinit⟩
  refine exec_invariant_along _ (fun s a s' h hC hstep => ?_) h0 (halong.and_mem _ hclass) hrun
  refine h.step hS hQ hC.1 (fun c now ha => ?_) hstep
  have := hC.2
  rw [ha] at this
  exact this

theorem Mirrored.recover_eq (hS : S.RoundTrips) (h : Mirrored S clock spec Q s) :
    spec.recover S clock s.log = some (s.replayed S clock spec).applyHeadWatermark := by
  rw [spec.recover_eq_recoverOnto S hS]
  exact recoverOnto_eq S clock h.owned

end Mirrors

end TopicRun

end Topics
