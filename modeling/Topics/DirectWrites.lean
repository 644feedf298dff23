import Topics.RoutedCalls
import Topics.TopicSteps

/-!
# Direct writes into a router destination

Derived records take seqs of the destination and leave no frame.  A direct write that is staged
behind them has a frame whose seq recovery does not expect: it replays the WAL first and
re-forwards afterwards, so the frame is taken for torn and dropped.
-/

namespace Topics

open Lib TopicState TopicIndex TopicRun WalRecord List Option Engine

variable {Blob : Type} {S : Serde Blob}

/-! ## Topics without limits -/

namespace TopicState

/-- A topic without limits that has lost no record. -/
structure Untrimmed (b : TopicState) : Prop where
  unlimited : b.config.limits = false
  involuntary : b.floors.involuntary = 0
  seqBase : b.seqBase = seqBaseDefault

variable {b : TopicState}

theorem Untrimmed.trimmed (h : b.Untrimmed) (cursor : Nat) :
    Routed.trimmed b cursor = 0 := by
  unfold Routed.trimmed evictEarliestSeq Floors.evictEarliest
  rw [h.involuntary, h.seqBase]
  unfold seqBaseDefault
  omega

theorem Untrimmed.snapshotTopic (h : b.Untrimmed) (hS : S.RoundTrips)
    (resolve : Nat → Value × Option Value) : (snapshotTopic S resolve b).Untrimmed := by
  refine ⟨?_, ?_, rfl⟩
  · change ((captureTopic S resolve b).config S).limits = false
    rw [config_captureTopic resolve hS]
    exact h.unlimited
  · unfold Topics.snapshotTopic restoreTopic captureTopic
    split
    · exact h.involuntary
    · rfl

theorem Untrimmed.applyHeadWatermark (h : b.Untrimmed) :
    b.applyHeadWatermark.Untrimmed := by
  rw [applyHeadWatermark_eq]
  split <;> exact ⟨h.unlimited, h.involuntary, h.seqBase⟩

theorem Untrimmed.append (h : b.Untrimmed) (records : List StoredRecord) :
    (b.append records).Untrimmed :=
  ⟨by rw [append_config]; exact h.unlimited, by rw [append_floors]; exact h.involuntary,
    by rw [append_seqBase]; exact h.seqBase⟩

/-- A topic replay can go on with: no limits, and the next seq is the head's successor. -/
structure Open (b : TopicState) : Prop where
  persistent : b.config.usesPersistentRecordStore = true
  unlimited : b.config.limits = false
  dense : b.index.tail = b.headSeq + 1

theorem Open.append (h : b.Open) (records : List StoredRecord) :
    (b.append records).Open := by
  refine ⟨?_, ?_, ?_⟩
  · rw [append_config]
    exact h.persistent
  · rw [append_config]
    exact h.unlimited
  · rw [append_headSeq h.dense, append_index, tail_pushAll, h.dense]
    omega

theorem live_append_of_live {q : Nat} {r : StoredRecord} (h : b.index.live q = some r)
    (rs : List StoredRecord) :
    (b.append rs).index.live q = some r := by
  rw [append_index]
  exact live_pushAll_of_live h rs

end TopicState

/-! ## Frames that only add -/

namespace WalRecord

/-- The frames of writes without retention, and the mark of a flush barrier. -/
def adds : WalRecord Blob → Bool
  | .append .. | .headWatermark .. | .checkpointMark .. => true
  | _ => false

/-- The seq of an `Append` to the id. -/
def appendSeqTo (id : Nat) : WalRecord Blob → Option Nat
  | .append i seq .. => if i = id then some seq else none
  | _ => none

theorem configures_of_adds {f : WalRecord Blob} (h : f.adds = true) (name : String) :
    f.configures name = false := by
  cases f with
  | topicConfig => cases h
  | _ => rfl

end WalRecord

namespace Engine

variable {now : Int} {id : Nat} {f : WalRecord Blob} {b b' : TopicState}

theorem ReplayStep.untrimmed (h : ReplayStep S now id f b b') (hf : f.adds = true)
    (hb : b.Untrimmed) : b'.Untrimmed := by
  cases h with
  | skip => exact hb
  | own =>
    cases f with
    | append i seq ts node tag data =>
      simp only [replay]
      split
      · split
        · exact hb.append _
        · exact hb
      · exact hb
    | headWatermark =>
      simp only [replay]
      split
      · exact ⟨hb.unlimited, hb.involuntary, hb.seqBase⟩
      · exact hb
    | checkpointMark => exact hb
    | _ => cases hf
  | reset =>
    rw [enforceRetention_of_unlimited rfl]
    exact { hb with unlimited := rfl }

theorem ReplayStep.adds (h : ReplayStep S now id f b b') (hf : f.adds = true) (hb : b.Open) :
    b'.Open ∧ (∀ q r, b.index.live q = some r → b'.index.live q = some r) ∧
      (f.appendSeqTo id ≠ some (b.headSeq + 1) → b'.headSeq = b.headSeq) := by
  cases h with
  | skip => exact ⟨hb, fun _ _ hq => hq, fun _ => rfl⟩
  | own haddr =>
    cases f with
    | append i seq ts node tag data =>
      have hi : i = id := beq_iff_eq.mp haddr
      rw [replay_append hb.persistent]
      split
      · rename_i hseq
        refine ⟨hb.append _, fun q r hq => live_append_of_live hq _, fun hne => ?_⟩
        exact absurd (by simp [appendSeqTo, hi, hseq]) hne
      · exact ⟨hb, fun _ _ hq => hq, fun _ => rfl⟩
    | headWatermark =>
      simp only [replay, hb.persistent, if_true]
      exact ⟨⟨hb.persistent, hb.unlimited, hb.dense⟩, fun _ _ hq => hq, fun _ => rfl⟩
    | checkpointMark => exact ⟨hb, fun _ _ hq => hq, fun _ => rfl⟩
    | _ => cases hf
  | reset =>
    rw [enforceRetention_of_unlimited rfl]
    exact ⟨⟨rfl, rfl, hb.dense⟩, fun _ _ hq => hq, fun _ => rfl⟩

variable {fs : List (WalRecord Blob)}

section

variable (h : Replays S now id fs b b') (hfs : ∀ f ∈ fs, f.adds = true)

include h hfs

theorem Replays.untrimmed (hb : b.Untrimmed) : b'.Untrimmed :=
  h.preserves (fun f hf _ _ hstep hb => hstep.untrimmed (hfs f hf) hb) hb

theorem Replays.adds (hb : b.Open) :
    b'.Open ∧ ∀ q r, b.index.live q = some r → b'.index.live q = some r := by
  have hP := h.preserves (P := fun x => x.Open ∧ ∀ q r, b.index.live q = some r →
    x.index.live q = some r) (fun f hf x x' hstep hx => ?_) ⟨hb, fun _ _ hq => hq⟩
  · exact hP
  · obtain ⟨hopen, hlive, -⟩ := hstep.adds (hfs f hf) hx.1
    exact ⟨hopen, fun q r hq => hlive q r (hx.2 q r hq)⟩

theorem Replays.headSeq (hb : b.Open) (hskip : ∀ f ∈ fs, f.appendSeqTo id ≠ some (b.headSeq + 1)) :
    b'.headSeq = b.headSeq := by
  have hP := h.preserves (P := fun x => x.Open ∧ x.headSeq = b.headSeq)
    (fun f hf x x' hstep hx => ?_) ⟨hb, rfl⟩
  · exact hP.2
  · obtain ⟨hopen, -, hhead⟩ := hstep.adds (hfs f hf) hx.1
    refine ⟨hopen, (hhead ?_).trans hx.2⟩
    rw [hx.2]
    exact hskip f hf

end

theorem Replays.eq_foldl (h : Replays S now id fs b b') (hfs : ∀ f ∈ fs, f.addresses id = true) :
    b' = fs.foldl (TopicState.replay S) b := by
  induction fs generalizing b with
  | nil => exact h
  | cons f fs ih =>
    obtain ⟨b₁, h₁, hrest⟩ := h
    have haddr := hfs f mem_cons_self
    refine (ih hrest fun g hg => hfs g (mem_cons_of_mem f hg)).trans ?_
    cases h₁ with
    | skip hskip =>
      rw [haddr] at hskip
      cases hskip
    | own => rfl
    | reset hreset =>
      rw [haddr] at hreset
      cases hreset

/-- **The frames of a batch** that starts behind the head replay to the batch. -/
theorem Replays.appendFrames (hS : S.RoundTrips) {time : Int} (h0 : 0 ≤ time) (h1 : time < 2 ^ 63)
    {records : List RecordIn} {g : StagedAppend} (hb : b.Open) (hstart : g.start = b.headSeq + 1)
    (hcount : g.count = records.length)
    (h : Replays S now id (WritePath.appendFrames S id time g (records.map fun r => r.stored S time))
      b b') : b' = b.append (records.map fun r => r.stored S time) := by
  have hframes := foldl_appendFrames (S := S) (fun _ _ _ => rfl) id time
    (records.map fun r => r.stored S time) hb.persistent hb.dense
  rw [length_map, map_replayedRecord_stored hS h0 h1] at hframes
  rw [h.eq_foldl (WritePath.addresses_appendFrames time g _), WritePath.appendFrames,
    StagedAppend.seqs, hstart, hcount]
  exact hframes

end Engine

/-! ## What a recovery has of the destination -/

/-- The destination `b` that the replay of the first `k` frames leads to, from a snapshot taken
behind `upto` derived records. -/
structure Follows (upto : Nat) (written : List DirectWrite) (derived tail len k : Nat)
    (b : TopicState) : Prop where
  opened : b.Open
  held : ∀ w ∈ written, w.frames ≤ k → w.derived ≤ upto → b.index.live w.seq = some w.record
  next : len ≤ k → derived = upto → b.headSeq + 1 = tail

/-- The same for every part of the log, from the destination `b` of a snapshot on. -/
def Followed (S : Serde Blob) (id position upto : Nat) (b : TopicState)
    (log : List (WalRecord Blob)) (written : List DirectWrite) (derived tail : Nat) : Prop :=
  ∀ now k b', Engine.Replays S now id ((log.take k).drop position) b b' →
    Follows upto written derived tail log.length k b'

section Followed

variable {id position upto : Nat} {b : TopicState} {log fs : List (WalRecord Blob)}
  {written written' : List DirectWrite} {derived derived' tail tail' : Nat}

section

variable (h : Followed S id position upto b log written derived tail)

include h

/-- **The log grows**: what a batch of frames has to achieve is said for the frames alone. -/
theorem Followed.extend (hp : position ≤ log.length) (hfs : ∀ f ∈ fs, f.adds = true)
    (hframes : ∀ w ∈ written, w.frames ≤ log.length)
    (hold : ∀ w ∈ written', w ∈ written ∨ w.frames = log.length + fs.length)
    (hnew : ∀ now b₁ b', b₁.Open → (derived = upto → b₁.headSeq + 1 = tail) →
      Engine.Replays S now id fs b₁ b' →
        (∀ w ∈ written', w ∉ written → w.derived ≤ upto →
          b'.index.live w.seq = some w.record) ∧
        (derived' = upto → b'.headSeq + 1 = tail')) :
    Followed S id position upto b (log ++ fs) written' derived' tail' := by
  intro now k b' hreplays
  by_cases hk : k < log.length
  · -- the part ends before the new frames
    rw [take_append_of_le_length hk.le] at hreplays
    have hfollows := h now k b' hreplays
    refine ⟨hfollows.opened, fun w hw hwk hd => ?_, fun hle => ?_⟩
    · rcases hold w hw with hw | hw
      · exact hfollows.held w hw hwk hd
      · omega
    · rw [length_append] at hle
      omega
  · have hk : log.length ≤ k := not_lt.mp hk
    rw [take_append, take_of_length_le hk, drop_append_of_le_length hp,
      replays_append] at hreplays
    obtain ⟨b₁, hlog, hnewFrames⟩ := hreplays
    have hfollows := h now log.length b₁ (by rwa [take_length])
    have hadds : ∀ f ∈ fs.take (k - log.length), f.adds = true := fun f hf =>
      hfs f (mem_of_mem_take hf)
    obtain ⟨hopen, hlive⟩ := hnewFrames.adds hadds hfollows.opened
    have hfull : log.length + fs.length ≤ k → (∀ w ∈ written', w ∉ written →
        w.derived ≤ upto → b'.index.live w.seq = some w.record) ∧
        (derived' = upto → b'.headSeq + 1 = tail') := by
      intro hle
      rw [take_of_length_le (by omega)] at hnewFrames
      exact hnew now b₁ b' hfollows.opened (hfollows.next le_rfl) hnewFrames
    refine ⟨hopen, fun w hw hwk hd => ?_, fun hle => ?_⟩
    · by_cases hmem : w ∈ written
      · exact hlive _ _ (hfollows.held w hmem (hframes w hmem) hd)
      · have hlen := (hold w hw).resolve_left hmem
        exact (hfull (by omega)).1 w hw hmem hd
    · rw [length_append] at hle
      exact (hfull hle).2

theorem Followed.foreign (hp : position ≤ log.length)
    (hframes : ∀ w ∈ written, w.frames ≤ log.length)
    (hfs : ∀ f ∈ fs, f.adds = true ∧ f.appendSeqTo id = none) :
    Followed S id position upto b (log ++ fs) written derived tail := by
  refine h.extend hp (fun f hf => (hfs f hf).1) hframes (fun w hw => .inl hw) ?_
  intro now b₁ b' hopen hnext hreplays
  refine ⟨fun w hw hno => absurd hw hno, fun hd => ?_⟩
  have hhead := hreplays.headSeq (fun f hf => (hfs f hf).1) hopen fun f hf => by
    rw [(hfs f hf).2]
    nofun
  rw [hhead]
  exact hnext hd

theorem Followed.derive (hd : derived' ≠ upto) (tail' : Nat) :
    Followed S id position upto b log written derived' tail' := by
  intro now k b' hreplays
  have hfollows := h now k b' hreplays
  exact { hfollows with next := fun _ heq => absurd heq hd }

end

/-- **The capture**: what is in the log lies at or below the captured head and is skipped. -/
theorem followed_captured (hb : b.Open)
    (hlog : ∀ f ∈ log, f.adds = true ∧ ∀ seq, f.appendSeqTo id = some seq → seq ≤ b.headSeq)
    (hheld : ∀ w ∈ written, b.index.live w.seq = some w.record) (htail : b.headSeq + 1 = tail) :
    Followed S id position upto b log written derived tail := by
  intro now k b' hreplays
  have hsub : ∀ f ∈ (log.take k).drop position, f ∈ log := fun f hf =>
    mem_of_mem_take (mem_of_mem_drop hf)
  have hadds : ∀ f ∈ (log.take k).drop position, f.adds = true := fun f hf =>
    (hlog f (hsub f hf)).1
  obtain ⟨hopen, hlive⟩ := hreplays.adds hadds hb
  have hhead := hreplays.headSeq hadds hb fun f hf heq => by
    have := (hlog f (hsub f hf)).2 _ heq
    omega
  exact ⟨hopen, fun w hw _ _ => hlive _ _ (hheld w hw), fun _ _ => by rw [hhead]; exact htail⟩

end Followed

/-! ## The tail of the destination -/

/-- The last record of the deque is live, or there is nothing in it. -/
def TopicIndex.Full (ix : TopicIndex) : Prop :=
  (ix.live (ix.tail - 1)).isSome ∨ (∀ q, ix.live q = none) ∧ ix.baseSeq = ix.tail

theorem TopicIndex.full_pushAll (ix : TopicIndex) {rs : List StoredRecord} (hne : rs ≠ [])
    (hwhole : ∀ r ∈ rs, r.deleted = false) : (ix.pushAll rs).Full := by
  have hpos : 0 < rs.length := length_pos_iff.mpr hne
  left
  rw [tail_pushAll, Nat.add_sub_assoc hpos,
    live_pushAll_stored (getElem?_eq_getElem (by omega)) (hwhole _ (getElem_mem _))]
  rfl

theorem TopicState.tailLive_of_full {b : TopicState} (h : b.index.Full)
    (htail : b.index.tail = b.headSeq + 1) : b.TailLive := by
  unfold TopicIndex.Full at h
  rw [htail, Nat.add_sub_cancel] at h
  exact h.imp_right fun h => ⟨fun q _ => h.1 q, h.2⟩

/-! ## The invariant -/

/-- A record as a direct write stores it, which a snapshot reproduces. -/
def DirectWrite.Resident (w : DirectWrite) : Prop :=
  w.record.payloadResident = true ∧ w.record.hops = 0

theorem DirectWrite.Resident.resolvedRecord {w : DirectWrite} (h : w.Resident)
    (resolve : Nat → Value × Option Value) : resolvedRecord resolve w.seq w.record = w.record := by
  unfold Topics.resolvedRecord slotPayload
  rw [h.1, if_pos rfl, ← h.2, ← h.1]

/-- The invariant of the shared state.  `source₀` and `dest₀` are the topics at the start. -/
structure WriteInv (S : Serde Blob) (source₀ dest₀ source : TopicState) (jobs : JobState Blob)
    (gate : List (Nat × Option StagedAppend)) (captures : List Capture) (derived : Nat)
    (written acked : List DirectWrite) : Prop where
  untrimmed : source.Untrimmed
  sourceId : source.topicId = source₀.topicId
  config : jobs.topic.config = dest₀.config
  destId : jobs.topic.topicId = dest₀.topicId
  deadLetter : jobs.deadLetter = none
  synced : jobs.synced ≤ jobs.log.length
  lined : Lined gate jobs.topic.headSeq jobs.topic.index.tail
  full : jobs.topic.index.Full
  log : ∀ f ∈ jobs.log, f.adds = true ∧
    ∀ seq, f.appendSeqTo dest₀.topicId = some seq → seq < jobs.topic.index.tail
  staged : ∀ w ∈ written, w.frames ≤ jobs.log.length ∧
    jobs.topic.index.live w.seq = some w.record ∧ w.Resident
  returned : ∀ w ∈ acked, w ∈ written ∧ w.frames ≤ jobs.synced
  position : ∀ c ∈ captures, c.position ≤ jobs.log.length
  older : ∀ c ∈ captures, c.derived ≤ derived
  sources : ∀ c ∈ captures, ∀ b ∈ c.topics, b.topicId = source₀.topicId → b.Untrimmed
  dests : ∀ c ∈ captures, ∀ b ∈ c.topics, b.topicId = dest₀.topicId →
    Followed S dest₀.topicId c.position c.derived b jobs.log written derived
      jobs.topic.index.tail

namespace RouteState

abbrev WriteInv (S : Serde Blob) (source₀ dest₀ : TopicState) (s : RouteState Blob) : Prop :=
  Topics.WriteInv S source₀ dest₀ s.source s.jobs s.gate s.captures s.derived s.written s.acked

/-- The steps the writers' calls consist of, and what is known when they come up. -/
def Allowed (S : Serde Blob) (s : RouteState Blob) : RouteInstr → Prop
  | .queue (.retain _) | .queue (.barrier _) => True
  | .queue _ | .noteTrim | .reserveHead .. => False
  | .submitDelete .. | .awaitDelete .. | .applyDelete .. => False
  | .visit _ w _ | .stageDerived _ w => ForwardPass.Whole w
  | .stageDirect stored now => ∃ records : List RecordIn, records ≠ [] ∧
      stored = records.map (fun r => r.stored S now) ∧ 0 ≤ now ∧ now < 2 ^ 63
  | .awaitWrite writes frames _ _ => frames ≤ s.jobs.log.length ∧
      ∀ w ∈ writes, w ∈ s.written ∧ w.frames ≤ frames
  | .ackWrites writes => ∀ w ∈ writes, w ∈ s.written ∧ w.frames ≤ s.jobs.synced
  | _ => True

def WriteCode (S : Serde Blob) (s : RouteState Blob) (_ : Nat) (code : List RouteInstr) : Prop :=
  ∀ i ∈ code, s.Allowed S i

structure Advances (s s' : RouteState Blob) : Prop where
  log : s.jobs.log.length ≤ s'.jobs.log.length
  synced : s.jobs.synced ≤ s'.jobs.synced
  written : ∀ w ∈ s.written, w ∈ s'.written

theorem Advances.allowed {s s' : RouteState Blob} (h : Advances s s') {i : RouteInstr}
    (hi : s.Allowed S i) : s'.Allowed S i := by
  cases i with
  | queue i =>
    cases i with
    | retain | barrier => trivial
    | _ => exact hi
  | awaitWrite writes frames g now =>
    exact ⟨hi.1.trans h.log, fun w hw => ⟨h.written w (hi.2 w hw).1, (hi.2 w hw).2⟩⟩
  | ackWrites writes =>
    exact fun w hw => ⟨h.written w (hi w hw).1, (hi w hw).2.trans h.synced⟩
  | _ => exact hi

def WriteKept (S : Serde Blob) (source₀ dest₀ : TopicState) (s : RouteState Blob) (t : Nat)
    (o : Outcome (RouteState Blob) RouteInstr) (rest : List RouteInstr) : Prop :=
  o.shared.WriteInv S source₀ dest₀ ∧ WriteCode S o.shared t (o.code rest) ∧
    ∀ t' code, t' ≠ t → WriteCode S s t' code → WriteCode S o.shared t' code

section Keeps

variable {source₀ dest₀ : TopicState} {s s' : RouteState Blob} {t : Nat} {i : RouteInstr}
  {more rest : List RouteInstr}

theorem Advances.kept (h : Advances s s') (hinv : s'.WriteInv S source₀ dest₀)
    (hQ : WriteCode S s t (i :: rest)) (hmore : ∀ j ∈ more, s'.Allowed S j) :
    WriteKept S source₀ dest₀ s t (.next s' more) rest := by
  refine ⟨hinv, fun j hj => ?_, fun t' code _ hcode j hj => h.allowed (hcode j hj)⟩
  rcases mem_append.mp hj with hj | hj
  · exact hmore j hj
  · exact h.allowed (hQ j (mem_cons_of_mem i hj))

theorem kept_stop (hs : s.WriteInv S source₀ dest₀) :
    WriteKept S source₀ dest₀ s t (.stop s) rest :=
  ⟨hs, fun _ hj => (not_mem_nil hj).elim, fun _ _ _ hcode => hcode⟩

end Keeps

end RouteState

/-! ## Calls on the source -/

variable {r : TopicRun Blob}

theorem TopicRun.retain_of_unlimited (h : r.topic.config.limits = false) (now : Int) :
    r.retain now = r := by
  have hidle := retentionIdle_of_limits h
  unfold retain logDurable
  simp only [retainFrames_of_idle hidle, enforceRetention_of_unlimited h,
    append_nil, isEmpty_nil, if_true]

/-- A call on a topic without limits adds frames of its own. -/
structure Fed (r r' : TopicRun Blob) : Prop extends
    r.Adds (fun f => f.adds = true ∧ f.addresses r.topic.topicId = true) r' where
  untrimmed : r'.topic.Untrimmed
  topicId : r'.topic.topicId = r.topic.topicId

theorem fed_appendBatch (h : r.topic.Untrimmed) (stored : List StoredRecord) (now : Int) :
    Fed r (r.appendBatch S stored now) := by
  obtain ⟨n, htopic⟩ := appendBatch_topic (S := S) r stored now
  refine ⟨.appendBatch r stored now (fun f hf => ⟨?_, ?_⟩) fun _ _ => ⟨rfl, ?_⟩, ?_, ?_⟩
  · obtain ⟨i, hi, rfl⟩ := mem_iff_getElem.mp hf
    simp [WritePath.appendFrames, WritePath.appendFrame, adds]
  · exact WritePath.addresses_appendFrames now _ _ f hf
  · exact beq_self_eq_true _
  · rw [htopic]
    apply Untrimmed.append
    exact ⟨h.unlimited, h.involuntary, h.seqBase⟩
  · rw [htopic, append_topicId]

theorem fed_write (h : r.topic.Untrimmed) (records : List RecordIn) (now : Int) :
    Fed r (r.write S records now) := by
  unfold write
  simp only [retain_of_unlimited h.unlimited]
  split
  · exact ⟨.of_log_eq rfl rfl, h, rfl⟩
  · have hfed := fed_appendBatch (S := S) h (records.map fun r => r.stored S now) now
    rw [retain_of_unlimited hfed.untrimmed.unlimited]
    exact hfed

/-! ## One step -/

theorem WalRecord.appendSeqTo_of_addresses {f : WalRecord Blob} {id id' : Nat} (hne : id ≠ id')
    (h : f.addresses id = true) : f.appendSeqTo id' = none := by
  cases f with
  | append i =>
    have hi : i = id := beq_iff_eq.mp h
    exact if_neg (hi ▸ hne)
  | _ => rfl

namespace WriteInv

variable {source₀ dest₀ source source' : TopicState} {jobs : JobState Blob}
  {gate : List (Nat × Option StagedAppend)} {captures : List Capture} {derived : Nat}
  {written acked : List DirectWrite}

section

variable (h : WriteInv S source₀ dest₀ source jobs gate captures derived written acked)

include h

theorem extend (hsource : source'.Untrimmed) (hid : source'.topicId = source.topicId)
    {fs : List (WalRecord Blob)}
    (hfs : ∀ f ∈ fs, f.adds = true ∧ f.appendSeqTo dest₀.topicId = none) {synced : Nat}
    (hsync : jobs.synced ≤ synced ∧ synced ≤ (jobs.log ++ fs).length) :
    WriteInv S source₀ dest₀ source' { jobs with log := jobs.log ++ fs, synced := synced } gate
      captures derived written acked := by
  have hlen : jobs.log.length ≤ (jobs.log ++ fs).length := by simp
  refine { h with
    untrimmed := hsource
    sourceId := hid.trans h.sourceId
    synced := hsync.2
    log := fun f hf => ?_
    staged := fun w hw => ⟨(h.staged w hw).1.trans hlen, (h.staged w hw).2⟩
    returned := fun w hw => ⟨(h.returned w hw).1, (h.returned w hw).2.trans hsync.1⟩
    position := fun c hc => (h.position c hc).trans hlen
    dests := fun c hc b hb hbid =>
      (h.dests c hc b hb hbid).foreign (h.position c hc) (fun w hw => (h.staged w hw).1) hfs }
  rcases mem_append.mp hf with hf | hf
  · exact h.log f hf
  · refine ⟨(hfs f hf).1, fun seq hseq => ?_⟩
    rw [(hfs f hf).2] at hseq
    cases hseq

theorem sync {synced : Nat} (hsync : jobs.synced ≤ synced ∧ synced ≤ jobs.log.length) :
    WriteInv S source₀ dest₀ source { jobs with synced := synced } gate captures derived written
      acked :=
  { h with
    synced := hsync.2
    returned := fun w hw => ⟨(h.returned w hw).1, (h.returned w hw).2.trans hsync.1⟩ }

/-- **A derived batch** takes seqs and leaves no frame. -/
theorem stageDerived (t : Nat) {records : List StoredRecord} (hne : records ≠ [])
    (hwhole : ∀ r ∈ records, r.deleted = false) :
    WriteInv S source₀ dest₀ source { jobs with topic := (jobs.topic.stageAppend records).1 }
      (gate ++ [(t, some (jobs.topic.stageAppend records).2)]) captures (derived + records.length)
      written acked := by
  have hpos : 0 < records.length := length_pos_iff.mpr hne
  have htail : ((jobs.topic.stageAppend records).1).index.tail =
      jobs.topic.index.tail + records.length := tail_pushAll _ _
  refine { h with
    lined := ?_
    full := full_pushAll _ hne hwhole
    log := fun f hf => ⟨(h.log f hf).1, fun seq hseq => ?_⟩
    staged := fun w hw => ?_
    older := fun c hc => (h.older c hc).trans (Nat.le_add_right _ _)
    dests := fun c hc b hb hbid => (h.dests c hc b hb hbid).derive ?_ _ }
  · rw [htail]
    exact h.lined.push t rfl
  · rw [htail]
    exact ((h.log f hf).2 seq hseq).trans_le (Nat.le_add_right _ _)
  · obtain ⟨hframes, hlive, hres⟩ := h.staged w hw
    exact ⟨hframes, live_pushAll_of_live hlive records, hres⟩
  · have := h.older c hc
    omega

end

/-- **A direct batch**: its frames are what the recoveries that have kept pace go on with. -/
theorem stageDirect (hS : S.RoundTrips)
    (h : WriteInv S source₀ dest₀ source jobs gate captures derived written acked) (t : Nat)
    {records : List RecordIn} (hne : records ≠ []) {now : Int} (h0 : 0 ≤ now) (h1 : now < 2 ^ 63)
    {stored : List StoredRecord} (hstored : stored = records.map fun r => r.stored S now) :
    WriteInv S source₀ dest₀ source
      { jobs with
        topic := (jobs.topic.stageAppend stored).1
        log := jobs.log ++ WritePath.appendFrames S jobs.topic.topicId now
          (jobs.topic.stageAppend stored).2 stored }
      (gate ++ [(t, some (jobs.topic.stageAppend stored).2)]) captures derived
      (written ++ zipWith
        (fun q r => ⟨q, r, jobs.log.length + (WritePath.appendFrames S jobs.topic.topicId now
          (jobs.topic.stageAppend stored).2 stored).length, derived⟩)
        (jobs.topic.stageAppend stored).2.seqs stored)
      acked := by
  have hstoredNe : stored ≠ [] := by
    rw [hstored]
    exact map_eq_nil_iff.not.mpr hne
  have hrecord : ∀ r ∈ stored, r.deleted = false ∧ r.payloadResident = true ∧ r.hops = 0 := by
    intro r hr
    rw [hstored] at hr
    obtain ⟨r', -, rfl⟩ := mem_map.mp hr
    exact ⟨rfl, rfl, rfl⟩
  have hpos : 0 < stored.length := length_pos_iff.mpr hstoredNe
  obtain ⟨fs, hfs⟩ : ∃ fs, fs = WritePath.appendFrames S jobs.topic.topicId now
    (jobs.topic.stageAppend stored).2 stored := ⟨_, rfl⟩
  rw [← hfs]
  have htail : ((jobs.topic.stageAppend stored).1).index.tail =
      jobs.topic.index.tail + stored.length := tail_pushAll _ _
  have hlive : ∀ q r, jobs.topic.index.live q = some r →
      ((jobs.topic.stageAppend stored).1).index.live q = some r := fun q r hq =>
    live_pushAll_of_live hq stored
  have hadds : ∀ f ∈ fs, f.adds = true ∧
      ∀ seq, f.appendSeqTo dest₀.topicId = some seq → seq < jobs.topic.index.tail + stored.length := by
    intro f hf
    rw [hfs] at hf
    obtain ⟨k, hk, rfl⟩ := mem_iff_getElem.mp hf
    have hk' : k < stored.length := by
      have := hk
      simp only [WritePath.appendFrames, length_zipWith] at this
      omega
    refine ⟨by simp [WritePath.appendFrames, WritePath.appendFrame, adds], ?_⟩
    intro seq hseq
    simp only [WritePath.appendFrames, WritePath.appendFrame, appendSeqTo, h.destId,
      getElem_zipWith, StagedAppend.seqs, getElem_range', if_true, some.injEq,
      stageAppend] at hseq
    omega
  -- the records of the batch, one by one
  have hbatch : ∀ w ∈ zipWith (fun q r => (⟨q, r, jobs.log.length + fs.length, derived⟩ :
      DirectWrite)) (jobs.topic.stageAppend stored).2.seqs stored,
      w.frames = jobs.log.length + fs.length ∧ w.derived = derived ∧
        ∃ k, stored[k]? = some w.record ∧ w.seq = jobs.topic.index.tail + k := by
    intro w hw
    obtain ⟨k, hk, rfl⟩ := mem_iff_getElem.mp hw
    have hk' : k < stored.length := by
      have := hk
      simp only [length_zipWith] at this
      omega
    refine ⟨by simp, by simp, k, ?_, ?_⟩
    · simp [getElem?_eq_getElem hk']
    · simp [StagedAppend.seqs, stageAppend]
  have hslot : ∀ (ix : TopicIndex) (k : Nat) (r : StoredRecord), stored[k]? = some r →
      (ix.pushAll stored).live (ix.tail + k) = some r := by
    exact fun ix k r hr => live_pushAll_stored hr (hrecord r (mem_of_getElem? hr)).1
  have hlen : jobs.log.length ≤ (jobs.log ++ fs).length := by simp
  refine ⟨h.untrimmed, h.sourceId, h.config, h.destId, h.deadLetter, h.synced.trans hlen, ?_,
    full_pushAll _ hstoredNe fun r hr => (hrecord r hr).1, fun f hf => ?_,
    fun w hw => ?_, fun w hw => ?_, fun c hc => (h.position c hc).trans hlen, h.older, h.sources,
    fun c hc b hb hbid => ?_⟩
  · rw [htail]
    exact h.lined.push t rfl
  · rw [htail]
    rcases mem_append.mp hf with hf | hf
    · exact ⟨(h.log f hf).1, fun seq hseq =>
        ((h.log f hf).2 seq hseq).trans_le (Nat.le_add_right _ _)⟩
    · exact hadds f hf
  · rcases mem_append.mp hw with hw | hw
    · obtain ⟨hframes, hl, hres⟩ := h.staged w hw
      exact ⟨hframes.trans hlen, hlive _ _ hl, hres⟩
    · obtain ⟨hframes, -, k, hk, hseq⟩ := hbatch w hw
      refine ⟨?_, ?_, (hrecord _ (mem_of_getElem? hk)).2⟩
      · rw [hframes, length_append]
      · rw [hseq]
        exact hslot jobs.topic.index k _ hk
  · exact ⟨mem_append_left _ (h.returned w hw).1, (h.returned w hw).2⟩
  · refine (h.dests c hc b hb hbid).extend (h.position c hc) (fun f hf => (hadds f hf).1)
      (fun w hw => (h.staged w hw).1) (fun w hw => ?_) ?_
    · rcases mem_append.mp hw with hw | hw
      · exact .inl hw
      · exact .inr (hbatch w hw).1
    · intro clock b₁ b' hopen hnext hreplays
      -- a recovery that has kept pace appends the batch where the destination has it
      have happend : derived = c.derived →
          b' = b₁.append stored ∧ b₁.index.tail = jobs.topic.index.tail := by
        intro hd
        have hhead := hnext hd
        have hstart : b₁.index.tail = jobs.topic.index.tail := by
          rw [hopen.dense, hhead]
        refine ⟨?_, hstart⟩
        rw [hfs, hstored, h.destId] at hreplays
        rw [hstored]
        exact hreplays.appendFrames hS h0 h1 hopen hhead.symm (by simp [stageAppend])
      refine ⟨fun w hw hno hd => ?_, fun hd => ?_⟩
      · obtain ⟨-, hwd, k, hk, hseq⟩ := hbatch w ((mem_append.mp hw).resolve_left hno)
        have hle := h.older c hc
        obtain ⟨rfl, hstart⟩ := happend (by omega)
        rw [hseq, append_index, ← hstart]
        exact hslot b₁.index k _ hk
      · obtain ⟨rfl, -⟩ := happend hd
        have := hnext hd
        rw [append_headSeq hopen.dense, htail]
        omega

/-- **A batch is published** when its ticket has its turn. -/
theorem publish {t : Nat} {g : StagedAppend}
    (h : WriteInv S source₀ dest₀ source jobs ((t, some g) :: gate) captures derived written acked) :
    WriteInv S source₀ dest₀ source { jobs with topic := jobs.topic.publishStagedNoSeal g } gate
      captures derived written acked := by
  obtain ⟨hstart, hrest⟩ := h.lined
  have hhead := publishStagedNoSeal_headSeq hstart
  have hindex := publishStagedNoSeal_index jobs.topic g
  have hsame : (jobs.topic.publishStagedNoSeal g).config = jobs.topic.config ∧
      (jobs.topic.publishStagedNoSeal g).topicId = jobs.topic.topicId := by
    unfold publishStagedNoSeal
    split <;> exact ⟨rfl, rfl⟩
  refine { h with
    config := hsame.1.trans h.config
    destId := hsame.2.trans h.destId
    lined := ?_
    full := ?_
    log := ?_
    staged := ?_
    dests := ?_ } <;> simp only [hindex]
  · rw [hhead]
    exact hrest
  exacts [h.full, h.log, h.staged, h.dests]

section

variable (h : WriteInv S source₀ dest₀ source jobs gate captures derived written acked)

include h

theorem ack {writes : List DirectWrite} (hw : ∀ w ∈ writes, w ∈ written ∧ w.frames ≤ jobs.synced) :
    WriteInv S source₀ dest₀ source jobs gate captures derived written (acked ++ writes) :=
  { h with returned := fun w hmem => (mem_append.mp hmem).elim (h.returned w) (hw w) }

theorem capture {captures' : List Capture} (hnew : ∀ c ∈ captures', c ∈ captures ∨
      c.position ≤ jobs.log.length ∧ c.derived ≤ derived ∧ ∀ b ∈ c.topics,
        (b.topicId = source₀.topicId → b.Untrimmed) ∧
        (b.topicId = dest₀.topicId → Followed S dest₀.topicId c.position c.derived b jobs.log
          written derived jobs.topic.index.tail)) :
    WriteInv S source₀ dest₀ source jobs gate captures' derived written acked := by
  refine ⟨h.untrimmed, h.sourceId, h.config, h.destId, h.deadLetter, h.synced, h.lined, h.full,
    h.log, h.staged, h.returned, fun c hc => ?_, fun c hc => ?_, fun c hc b hb hid => ?_,
    fun c hc b hb hid => ?_⟩
  · exact (hnew c hc).elim (h.position c) fun hc => hc.1
  · exact (hnew c hc).elim (h.older c) fun hc => hc.2.1
  · rcases hnew c hc with hc | hc
    · exact h.sources c hc b hb hid
    · exact (hc.2.2 b hb).1 hid
  · rcases hnew c hc with hc | hc
    · exact h.dests c hc b hb hid
    · exact (hc.2.2 b hb).2 hid

end

theorem followed_snapshotTopic (hS : S.RoundTrips) (resolve : Nat → Value × Option Value)
    (hfs : dest₀.config.durabilityClass = .fsync) (hlim : dest₀.config.limits = false)
    (h : WriteInv S source₀ dest₀ source jobs [] captures derived written acked) (position : Nat) :
    Followed S dest₀.topicId position derived (snapshotTopic S resolve jobs.topic) jobs.log written
      derived jobs.topic.index.tail := by
  have hp : jobs.topic.config.usesPersistentRecordStore = true := by
    rw [h.config]
    exact persistent_of_fsync hfs
  have htail : jobs.topic.index.tail = jobs.topic.headSeq + 1 := h.lined
  have hconfig : (snapshotTopic S resolve jobs.topic).config = jobs.topic.config :=
    config_captureTopic resolve hS
  have hhead : (snapshotTopic S resolve jobs.topic).headSeq = jobs.topic.headSeq := by
    unfold snapshotTopic restoreTopic captureTopic
    split <;> rfl
  refine followed_captured ⟨?_, ?_, ?_⟩ (fun f hf => ⟨(h.log f hf).1, fun seq hseq => ?_⟩)
    (fun w hw => ?_) ?_
  · rw [hconfig]
    exact hp
  · rw [hconfig, h.config]
    exact hlim
  · rw [hhead]
    exact (tail_snapshotTopic resolve hS hp).mpr (tailLive_of_full h.full htail)
  · have := (h.log f hf).2 seq hseq
    omega
  · obtain ⟨-, hlive, hres⟩ := h.staged w hw
    have hlt := lt_tail_of_get (live_eq_some.mp hlive).1
    rw [live_snapshotTopic resolve hS hp, if_pos (by omega), hlive, map_some,
      hres.resolvedRecord]
  · omega

end WriteInv

theorem mem_modify {α : Type} {l : List α} {i : Nat} {f : α → α} {x : α} (h : x ∈ l.modify i f) :
    x ∈ l ∨ ∃ y, l[i]? = some y ∧ x = f y := by
  obtain ⟨j, hj⟩ := mem_iff_getElem?.mp h
  rw [getElem?_modify] at hj
  split at hj
  · rename_i hij
    subst hij
    obtain ⟨y, hy, rfl⟩ := map_eq_some_iff.mp hj
    exact .inr ⟨y, hy, rfl⟩
  · exact .inl (mem_iff_getElem?.mpr ⟨j, by simpa using hj⟩)

namespace RouteState

variable {source₀ dest₀ : TopicState}

section Step

variable {resolve : Nat → Nat → Value × Option Value} {deadLetterId : Nat} {s s' : RouteState Blob}
  {t : Nat} {i : RouteInstr} {more rest : List RouteInstr}
  {o : Outcome (RouteState Blob) RouteInstr}

theorem kept_aside (hinv : s'.WriteInv S source₀ dest₀) (hjobs : s'.jobs = s.jobs)
    (hwritten : s'.written = s.written) (hQ : WriteCode S s t (i :: rest))
    (hmore : ∀ j ∈ more, s'.Allowed S j) : WriteKept S source₀ dest₀ s t (.next s' more) rest := by
  refine Advances.kept ⟨?_, ?_, fun w hw => ?_⟩ hinv hQ hmore
  · rw [hjobs]
  · rw [hjobs]
  · rw [hwritten]
    exact hw

theorem allowed_nil : ∀ j ∈ [], s.Allowed S j := fun _ hj => (not_mem_nil hj).elim

theorem onSource_retain (hs : s.WriteInv S source₀ dest₀) (now : Int) :
    s.onSource (fun r => r.retain now) = s := by
  have hidle := retain_of_unlimited
    (r := ⟨s.source, s.jobs.log, s.jobs.synced, [], [], []⟩) hs.untrimmed.unlimited now
  simp only [onSource, hidle]

theorem kept_queue (hlim : dest₀.config.limits = false) (hs : s.WriteInv S source₀ dest₀)
    {i : JobInstr} (hQ : WriteCode S s t (.queue i :: rest))
    (h : s.queueStep S resolve deadLetterId t i = some o) :
    WriteKept S source₀ dest₀ s t o rest := by
  have hi : s.Allowed S (.queue i) := hQ _ mem_cons_self
  cases i with
  | retain now =>
    have hidle : s.jobs.topic.retentionIdle = true := by
      refine retentionIdle_of_limits ?_
      rw [hs.config]
      exact hlim
    simp only [queueStep, JobState.sem, hidle, if_true, map_some, map_nil,
      some.injEq] at h
    subst h
    exact kept_aside hs rfl rfl hQ allowed_nil
  | barrier now =>
    simp only [queueStep, JobState.sem, map_some, map_nil, some.injEq] at h
    subst h
    have hlen : s.jobs.synced ≤ s.jobs.log.length + 1 := Nat.le_succ_of_le hs.synced
    refine Advances.kept ⟨by simp [JobState.logDurable], hlen, fun w hw => hw⟩ ?_ hQ allowed_nil
    refine hs.extend hs.untrimmed rfl (fun f hf => ?_) ⟨hlen, by simp⟩
    cases mem_singleton.mp hf
    exact ⟨rfl, rfl⟩
  | _ => exact hi.elim

variable {now : Int} {g : StagedAppend} {k : Nat}

/-- **A write to the source.** -/
theorem kept_writeSource (hid : source₀.topicId ≠ dest₀.topicId) (hs : s.WriteInv S source₀ dest₀)
    {records : List RecordIn} (hQ : WriteCode S s t (.writeSource records now :: rest)) :
    WriteKept S source₀ dest₀ s t
      (.next (s.onSource fun r => r.write S records now) []) rest := by
  have hfed := fed_write (S := S) (r := ⟨s.source, s.jobs.log, s.jobs.synced, [], [], []⟩)
    hs.untrimmed records now
  obtain ⟨fs, hlog, hadds⟩ := hfed.log
  have hsync := hfed.synced hs.synced
  rw [hlog] at hsync
  refine Advances.kept ⟨?_, hsync.1, fun w hw => hw⟩ ?_ hQ allowed_nil
  · simp [onSource, hlog]
  · simp only [onSource, hlog]
    refine hs.extend hfed.untrimmed hfed.topicId (fun f hf => ⟨(hadds f hf).1, ?_⟩) hsync
    refine appendSeqTo_of_addresses ?_ (hadds f hf).2
    rw [show TopicState.topicId _ = source₀.topicId from hs.sourceId]
    exact hid

theorem kept_readSource (hs : s.WriteInv S source₀ dest₀) {e : RouterEntry}
    (hQ : WriteCode S s t (.readSource e now :: rest))
    (h : sem S resolve deadLetterId s t () (.readSource e now) = some o) :
    WriteKept S source₀ dest₀ s t o rest := by
  simp only [sem, onSource_retain hs, hs.untrimmed.trimmed, if_true, nil_append,
    some.injEq] at h
  subst h
  refine kept_aside hs rfl rfl hQ fun j hj => ?_
  split at hj
  all_goals
    cases mem_singleton.mp hj
    trivial

theorem kept_stageDerived (hs : s.WriteInv S source₀ dest₀) {p : ForwardPass} {w : ForwardWalk}
    (hQ : WriteCode S s t (.stageDerived p w :: rest))
    (h : sem S resolve deadLetterId s t () (.stageDerived p w) = some o) :
    WriteKept S source₀ dest₀ s t o rest := by
  have hw : ForwardPass.Whole w := hQ _ mem_cons_self
  simp only [sem] at h
  split at h
  · cases h
    exact kept_aside hs rfl rfl hQ (forall_mem_singleton.mpr trivial)
  · rename_i hne
    split at h
    · cases h
      refine Advances.kept ⟨le_rfl, le_rfl, fun w hw => hw⟩
        (hs.stageDerived t (by simpa using hne) hw) hQ fun j hj => ?_
      simp only [mem_cons, not_mem_nil, or_false] at hj
      rcases hj with rfl | rfl | rfl <;> trivial
    · cases h

theorem kept_stageDirect (hS : S.RoundTrips) (hfs : dest₀.config.durabilityClass = .fsync)
    (hs : s.WriteInv S source₀ dest₀) {stored : List StoredRecord}
    (hQ : WriteCode S s t (.stageDirect stored now :: rest))
    (h : sem S resolve deadLetterId s t () (.stageDirect stored now) = some o) :
    WriteKept S source₀ dest₀ s t o rest := by
  obtain ⟨records, hne, rfl, h0, h1⟩ := hQ _ mem_cons_self
  have hclass : s.dest.config.durabilityClass = .fsync := by
    rw [show s.dest.config = dest₀.config from hs.config]
    exact hfs
  simp only [sem, hclass] at h
  split at h
  · cases h
    refine Advances.kept ⟨?_, le_rfl, fun w hw => mem_append_left _ hw⟩
      (hs.stageDirect hS t hne h0 h1 rfl) hQ
      (forall_mem_singleton.mpr ⟨by simp [stage, log, setDest], fun w hw => ?_⟩)
    · simp [stage, log, setDest]
    · refine ⟨mem_append_right _ hw, ?_⟩
      obtain ⟨k, hk, rfl⟩ := mem_iff_getElem.mp hw
      simp [directWrites]
  · cases h

theorem kept_awaitWrite (hs : s.WriteInv S source₀ dest₀) {writes : List DirectWrite}
    {frames : Nat} (hQ : WriteCode S s t (.awaitWrite writes frames g now :: rest)) :
    WriteKept S source₀ dest₀ s t
      (.next (s.sync frames) [.publish g, .queue (.retain now), .ackWrites writes]) rest := by
  obtain ⟨hle, hwrites⟩ := hQ _ mem_cons_self
  have hsync : s.jobs.synced ≤ max s.jobs.synced frames ∧
      max s.jobs.synced frames ≤ s.jobs.log.length :=
    ⟨le_max_left _ _, max_le hs.synced hle⟩
  refine Advances.kept ⟨le_rfl, hsync.1, fun w hw => hw⟩ (hs.sync hsync) hQ fun j hj => ?_
  simp only [mem_cons, not_mem_nil, or_false] at hj
  rcases hj with rfl | rfl | rfl
  · trivial
  · trivial
  · exact fun w hw => ⟨(hwrites w hw).1, (hwrites w hw).2.trans (le_max_right _ _)⟩

theorem kept_publish (hs : s.WriteInv S source₀ dest₀) (hQ : WriteCode S s t (.publish g :: rest))
    (h : sem S resolve deadLetterId s t () (.publish g) = some o) :
    WriteKept S source₀ dest₀ s t o rest := by
  simp only [sem] at h
  split at h
  · rename_i t' g' gate hgate
    split at h
    · rename_i heq
      obtain ⟨rfl, rfl⟩ := heq
      cases h
      have hs' := hs
      rw [WriteInv, hgate] at hs'
      exact Advances.kept ⟨le_refl _, le_rfl, fun w hw => hw⟩ hs'.publish hQ allowed_nil
    · cases h
  · cases h

/-! ### Snapshots -/

theorem kept_readPosition (hs : s.WriteInv S source₀ dest₀) {walk : List RoutedTopic}
    (hQ : WriteCode S s t (.readPosition walk now :: rest))
    (h : sem S resolve deadLetterId s t () (.readPosition walk now) = some o) :
    WriteKept S source₀ dest₀ s t o rest := by
  cases h
  refine kept_aside (hs.capture fun c hc => ?_) rfl rfl hQ fun j hj => ?_
  · rcases mem_append.mp hc with hc | hc
    · exact .inl hc
    · cases mem_singleton.mp hc
      exact .inr ⟨le_rfl, Nat.zero_le _, nofun⟩
  · rcases mem_append.mp hj with hj | hj
    · rcases mem_cons.mp hj with rfl | hj
      · trivial
      · obtain ⟨topic, -, hj⟩ := mem_flatMap.mp hj
        cases topic <;>
          simp only [RoutedTopic.captureCode, mem_cons, not_mem_nil, or_false] at hj
        · subst hj
          trivial
        · rcases hj with rfl | rfl | rfl <;> trivial
        · subst hj
          trivial
    · exact mem_singleton.mp hj ▸ trivial

theorem kept_captureSource (hS : S.RoundTrips) (hid : source₀.topicId ≠ dest₀.topicId)
    (hs : s.WriteInv S source₀ dest₀) (hQ : WriteCode S s t (.captureSource k now :: rest))
    (h : sem S resolve deadLetterId s t () (.captureSource k now) = some o) :
    WriteKept S source₀ dest₀ s t o rest := by
  simp only [sem, onSource_retain hs, some.injEq] at h
  subst h
  refine kept_aside (hs.capture fun c hc => ?_) rfl rfl hQ allowed_nil
  rcases mem_modify hc with hc | ⟨c', hget, rfl⟩
  · exact .inl hc
  · have hmem := mem_of_getElem? hget
    refine .inr ⟨hs.position c' hmem, hs.older c' hmem, fun b hb => ?_⟩
    rcases mem_append.mp hb with hb | hb
    · exact ⟨hs.sources c' hmem b hb, hs.dests c' hmem b hb⟩
    · cases mem_singleton.mp hb
      refine ⟨fun _ => hs.untrimmed.snapshotTopic hS _, fun hbid => ?_⟩
      rw [snapshotTopic_topicId, hs.sourceId] at hbid
      exact absurd hbid hid

theorem kept_captureDest (hS : S.RoundTrips) (hfs : dest₀.config.durabilityClass = .fsync)
    (hlim : dest₀.config.limits = false) (hid : source₀.topicId ≠ dest₀.topicId)
    (hs : s.WriteInv S source₀ dest₀) (hQ : WriteCode S s t (.captureDest k :: rest))
    (h : sem S resolve deadLetterId s t () (.captureDest k) = some o) :
    WriteKept S source₀ dest₀ s t o rest := by
  obtain ⟨hcond, h⟩ := ite_none_right_eq_some.mp h
  obtain ⟨-, hgate, honce⟩ := hcond
  cases h
  have hs' := hs
  rw [WriteInv, hgate] at hs'
  refine kept_aside (hs.capture fun c hc => ?_) rfl rfl hQ allowed_nil
  rcases mem_modify hc with hc | ⟨c', hget, rfl⟩
  · exact .inl hc
  · have hmem := mem_of_getElem? hget
    refine .inr ⟨hs.position c' hmem, le_refl _, fun b hb => ?_⟩
    rcases mem_append.mp hb with hb | hb
    · -- the walk meets the destination once
      refine ⟨hs.sources c' hmem b hb, fun hbid => ?_⟩
      exact absurd ⟨b, hb, hbid.trans hs.destId.symm⟩ (honce c' hget)
    · cases mem_singleton.mp hb
      refine ⟨fun hbid => ?_, fun _ => hs'.followed_snapshotTopic hS _ hfs hlim _⟩
      rw [snapshotTopic_topicId] at hbid
      exact absurd (hbid.symm.trans hs.destId) hid

theorem kept_captureRouters (hs : s.WriteInv S source₀ dest₀)
    (hQ : WriteCode S s t (.captureRouters k :: rest))
    (h : sem S resolve deadLetterId s t () (.captureRouters k) = some o) :
    WriteKept S source₀ dest₀ s t o rest := by
  cases h
  refine kept_aside (hs.capture fun c hc => ?_) rfl rfl hQ allowed_nil
  rcases mem_modify hc with hc | ⟨c', hget, rfl⟩
  · exact .inl hc
  · have hmem := mem_of_getElem? hget
    exact .inr ⟨hs.position c' hmem, hs.older c' hmem, fun b hb =>
      ⟨hs.sources c' hmem b hb, hs.dests c' hmem b hb⟩⟩

/-- **Step lemma.** -/
theorem keeps_write (hS : S.RoundTrips) (hfs : dest₀.config.durabilityClass = .fsync)
    (hlim : dest₀.config.limits = false) (hid : source₀.topicId ≠ dest₀.topicId) :
    Threads.Keeps (fun _ _ _ => True) (WriteInv S source₀ dest₀) (WriteCode S)
      (sem S resolve deadLetterId) := by
  intro s t x i rest o _ hs hQ h
  have hi := hQ i mem_cons_self
  suffices hkept : WriteKept S source₀ dest₀ s t o rest from hkept
  cases i with
  | queue i => exact kept_queue hlim hs hQ h
  | writeSource records now =>
    obtain ⟨-, ⟨⟩⟩ := ite_none_right_eq_some.mp h
    exact kept_writeSource hid hs hQ
  | beginPass name now =>
    obtain ⟨-, h⟩ := ite_none_right_eq_some.mp h
    split at h
    · cases h
      exact kept_stop hs
    · cases h
      exact kept_aside hs rfl rfl hQ (forall_mem_singleton.mpr trivial)
  | readSource e now => exact kept_readSource hs hQ h
  | moveCursor | endPass =>
    cases h
    exact kept_aside hs rfl rfl hQ allowed_nil
  | readConfig router cursor srcHead now =>
    cases h
    refine kept_aside hs rfl rfl hQ fun j hj => ?_
    rcases mem_append.mp hj with hj | hj
    · split at hj
      · exact mem_singleton.mp hj ▸ trivial
      · cases hj
    · exact mem_singleton.mp hj ▸ trivial
  | readKeys router cursor srcHead config now =>
    cases h
    exact kept_aside hs rfl rfl hQ (forall_mem_singleton.mpr fun _ hr => (not_mem_nil hr).elim)
  | visit p w seqs =>
    simp only [sem] at h
    split at h
    · cases h
      exact kept_aside hs rfl rfl hQ (forall_mem_singleton.mpr hi)
    · cases h
      exact kept_aside hs rfl rfl hQ (forall_mem_singleton.mpr (ForwardPass.Whole.visit hi _))
  | stageDerived p w => exact kept_stageDerived hs hQ h
  | admitWrite records now =>
    obtain ⟨hok, h⟩ := ite_none_right_eq_some.mp h
    split at h
    · cases h
      exact kept_stop hs
    · cases h
      exact kept_aside hs rfl rfl hQ
        (forall_mem_singleton.mpr ⟨records, hok.1, rfl, hok.2⟩)
  | stageDirect stored now => exact kept_stageDirect hS hfs hs hQ h
  | awaitWrite writes frames g now =>
    cases h
    exact kept_awaitWrite hs hQ
  | ackWrites writes =>
    cases h
    exact kept_aside (hs.ack hi) rfl rfl hQ allowed_nil
  | publish g => exact kept_publish hs hQ h
  | lockAppend | freeze =>
    obtain ⟨-, ⟨⟩⟩ := ite_none_right_eq_some.mp h
    exact kept_aside hs rfl rfl hQ allowed_nil
  | readPosition walk now => exact kept_readPosition hs hQ h
  | captureSource k now => exact kept_captureSource hS hid hs hQ h
  | captureDest k => exact kept_captureDest hS hfs hlim hid hs hQ h
  | captureDeadLetter k now =>
    simp only [sem, hs.deadLetter] at h
    cases h
    exact kept_aside hs rfl rfl hQ allowed_nil
  | captureRouters k => exact kept_captureRouters hs hQ h
  | _ => exact hi.elim

/-! ### Runs -/

theorem writeCode_body (s : RouteState Blob) (t : Nat) (c : WriteCall) :
    WriteCode S s t c.body := by
  intro j hj
  cases c <;> simp only [WriteCall.body, mem_cons, not_mem_nil, or_false] at hj
  case writeSource | forward =>
    subst hj
    trivial
  case write | snapshot => rcases hj with rfl | rfl <;> trivial

theorem writeInv_start (hfs : dest₀.config.durabilityClass = .fsync)
    (hlim : dest₀.config.limits = false) (hsource : source₀.Untrimmed)
    (hid : source₀.topicId ≠ dest₀.topicId) (hdense : dest₀.index.tail = dest₀.headSeq + 1)
    (hfull : dest₀.index.Full) (routers : RouterGraph) :
    (start source₀ dest₀ none routers : Threads (RouteState Blob) RouteInstr).shared.WriteInv S source₀ dest₀ := by
  have hopen : dest₀.Open := ⟨persistent_of_fsync hfs, hlim, hdense⟩
  refine ⟨hsource, rfl, rfl, rfl, rfl, le_rfl, hdense, hfull, nofun,
    nofun, nofun, ?_, ?_, ?_, ?_⟩
  all_goals
    intro c hc
    cases mem_singleton.mp hc
  · exact Nat.zero_le _
  · exact Nat.zero_le _
  · intro b hb hbid
    rcases mem_cons.mp hb with rfl | hb
    · exact hsource
    · cases mem_singleton.mp hb
      exact absurd hbid.symm hid
  · intro b hb hbid
    rcases mem_cons.mp hb with rfl | hb
    · exact absurd hbid hid
    · cases mem_singleton.mp hb
      exact followed_captured hopen nofun
        nofun hdense.symm

theorem exists_replays_of_holds (deadLetterId : Nat) {s : RouteState Blob} {c : Capture}
    {id : Nat} (hc : c.Holds id) (hlog : ∀ f ∈ s.jobs.log, f.adds = true) (k : Nat) (now : Int) :
    ∃ b ∈ c.topics, b.topicId = id ∧ ∃ b',
      (s.replayed S deadLetterId c k now).getTopicById id = some b'.applyHeadWatermark ∧
      Engine.Replays S now id ((s.jobs.log.take k).drop c.position) b b' := by
  obtain ⟨b₀, hb₀, hid⟩ := hc
  have hsome : (c.topics.find? fun b => decide (b.topicId = id)).isSome :=
    find?_isSome.mpr ⟨b₀, hb₀, by simpa using hid⟩
  obtain ⟨b, hb⟩ := isSome_iff_exists.mp hsome
  have hadds : ∀ f ∈ (s.jobs.log.take k).drop c.position, f.adds = true := fun f hf =>
    hlog f (mem_of_mem_take (mem_of_mem_drop hf))
  obtain ⟨b', hb', hreplays⟩ := exists_replays (S := S) now
    (E := ⟨c.topics, c.routers, deadLetterId + 1⟩) hb
    fun f hf => configures_of_adds (hadds f hf) b.name
  refine ⟨b, mem_of_find?_eq_some hb, by simpa using find?_some hb, b', ?_, hreplays⟩
  rw [replayed, getTopicById_applyHeadWatermarks, hb', map_some]

theorem live_reforward {x : Routed} (hsource : x.source.Untrimmed)
    (hlim : x.dest.config.limits = false) {q : Nat} {r : StoredRecord}
    (hlive : x.dest.index.live q = some r) (clock : Nat → Int) :
    (x.reforward S resolve clock).dest.index.live q = some r := by
  refine (Routed.reforward_induct (P := fun x => x.source.Untrimmed ∧
    x.dest.config.limits = false ∧ x.dest.index.live q = some r) (fun x name now hx => ?_) clock
    ⟨hsource, hlim, hlive⟩).2.2
  obtain ⟨hsource, hdest⟩ := hx
  have hretain : x.source.enforceRetention now = x.source :=
    enforceRetention_of_unlimited hsource.unlimited now
  refine ⟨?_, ?_⟩
  · rcases x.advanceRouter_source (S := S) name now with h | h
    · rw [h]
      exact hsource
    · rw [h, hretain]
      exact hsource
  · refine Routed.advanceRouter_dest
      (P := fun b => b.config.limits = false ∧ b.index.live q = some r) ?_ ?_ ?_ hdest
    · intro e _ htrim
      rw [hretain] at htrim
      exact absurd (hsource.trimmed e.cursor) htrim
    · intro b hb
      rw [enforceRetention_of_unlimited hb.1]
      exact hb
    · intro b rs _ hb
      refine ⟨?_, live_append_of_live hb.2 rs⟩
      rw [append_config]
      exact hb.1

end Step

/-- A source and a destination of class `fsync`, both empty. -/
def routedSource : TopicState := .new "src" 1 { durable := true } seqBaseDefault

def routedDest : TopicState := .new "dst" 2 { durable := true } seqBaseDefault

def plainIn : RecordIn := ⟨none, some "a", .null, none⟩

def oneRouter : RouterGraph := ⟨[⟨{ name := "r", source := "src", dest := "dst" }, 0, 0, 0⟩]⟩

/-- `n` steps of thread `t`. -/
def steps {C : Type} (t n : Nat) : List (ThreadAction C Unit) := List.replicate n (.run t ())

/-- A record is written to the source, one is written to the destination, the first is forwarded,
a snapshot is taken, and another record is written to the destination. -/
def snapshotBetween : List (ThreadAction WriteCall Unit) :=
  .start 1 (.writeSource [plainIn] 0) :: steps 1 1 ++
  .start 1 (.write [plainIn] 0) :: steps 1 7 ++
  .start 1 (.forward "r" 0) :: steps 1 10 ++
  .start 2 (.snapshot [.source, .dest] 0) :: steps 2 8 ++
  .start 1 (.write [plainIn] 0) :: steps 1 7

/-- The record of the source is forwarded, then one is written to the destination. -/
def writtenBehindForward : List (ThreadAction WriteCall Unit) :=
  .start 1 (.writeSource [plainIn] 0) :: steps 1 1 ++
  .start 1 (.forward "r" 0) :: steps 1 10 ++
  .start 1 (.write [plainIn] 0) :: steps 1 7

end RouteState

end Topics
