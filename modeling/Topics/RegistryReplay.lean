import Topics.Registry
import Topics.Retention

/-!
# A replayed topic against the live one

What the frames of one topic make of it, compared with the topic that logged them and with the
records its writes acknowledged.
-/

namespace Topics

open Lib TopicState TopicIndex List

variable {Blob : Type}

/-! ## Topics without limits -/

section

variable {b : TopicState}

theorem TopicState.retentionIdle_of_limits (h : b.config.limits = false) :
    b.retentionIdle = true := by
  unfold TopicConfig.limits at h
  unfold retentionIdle
  simp only [ne_eq, decide_eq_false_iff_not, not_or, not_not] at h
  simp [h]

theorem TopicState.enforceRetention_of_unlimited (h : b.config.limits = false) (now : Int) :
    b.enforceRetention now = b :=
  enforceRetention_of_idle (retentionIdle_of_limits h) now

theorem Registry.mem_retainFrames {now : Int} {f : WalRecord Blob}
    (h : f ∈ Registry.retainFrames b now) :
    ∃ evict expiry earliest ts, f = .evictWatermark b.topicId evict expiry earliest ts := by
  unfold Registry.retainFrames at h
  split at h
  · exact ⟨_, _, _, _, mem_singleton.mp h⟩
  · cases h

end

/-! ## Acknowledged records of a topic -/

/-- What is left of the acknowledged records in a topic: each one at its seq, unless a floor
covers it, and nothing else.  Floors rise only in a topic with a retention limit and in one
that a router feeds (`fed`). -/
structure Restored (s : Registry Blob) (fed : Prop) (b : TopicState) : Prop where
  seqBase : b.seqBase = seqBaseDefault
  idle : b.topicId ∉ s.limited → b.config.limits = false
  positive : ∀ q r, (b.topicId, q, r) ∈ s.acked → 1 ≤ q
  back : ∀ q r, (b.topicId, q, r) ∈ s.acked →
    b.index.live q = some r ∨ q ≤ b.floors.top ∧ (b.topicId ∈ s.limited ∨ fed)
  forth : ∀ q r, b.index.live q = some r → (b.topicId, q, r) ∈ s.acked ∨ fed

namespace Restored

variable {s : Registry Blob} {fed : Prop} {b : TopicState}

theorem mono (h : Restored s fed b) {s' : Registry Blob}
    (hacked : ∀ q r, (b.topicId, q, r) ∈ s'.acked ↔ (b.topicId, q, r) ∈ s.acked)
    (hlimited : s.limited ⊆ s'.limited) : Restored s' fed b where
  seqBase := h.seqBase
  idle hid := h.idle fun hmem => hid (hlimited hmem)
  positive q r hq := h.positive q r ((hacked q r).mp hq)
  back q r hq := (h.back q r ((hacked q r).mp hq)).imp_right fun hfloor =>
    ⟨hfloor.1, hfloor.2.imp_left fun hmem => hlimited hmem⟩
  forth q r hq := (h.forth q r hq).imp_left (hacked q r).mpr

theorem of_fed (h : Restored s False b) : Restored s fed b where
  seqBase := h.seqBase
  idle := h.idle
  positive := h.positive
  back q r hq := (h.back q r hq).imp_right fun hfloor =>
    ⟨hfloor.1, Or.inl (hfloor.2.resolve_right id)⟩
  forth q r hq := Or.inl ((h.forth q r hq).resolve_right id)

section

variable (h : Restored s fed b)

include h

theorem enforceRetention (now : Int) : Restored s fed (b.enforceRetention now) := by
  by_cases hidle : b.config.limits = false
  · rw [enforceRetention_of_unlimited hidle]
    exact h
  · have hlim : b.topicId ∈ s.limited := by
      by_contra hmem
      exact hidle (h.idle hmem)
    have hst := steady_enforceRetention b now
    refine ⟨hst.seqBase.trans h.seqBase, ?_, ?_, ?_, ?_⟩
    · rw [hst.topicId, hst.config]
      exact h.idle
    · rw [hst.topicId]
      exact h.positive
    · intro q r hq
      rw [hst.topicId] at hq ⊢
      by_cases htop : q ≤ (b.enforceRetention now).floors.top
      · exact Or.inr ⟨htop, Or.inl hlim⟩
      · rcases h.back q r hq with hlive | ⟨hle, _⟩
        · left
          have hpos := h.positive q r hq
          rw [live_enforceRetention_of_top_lt (by rw [h.seqBase]; exact hpos)
            (by omega)]
          exact hlive
        · exact absurd (hle.trans (floors_le_enforceRetention b now).top) htop
    · intro q r hq
      rw [hst.topicId]
      exact h.forth q r (live_of_live_enforceRetention hq)

theorem derive (hfed : fed) {b' : TopicState} (hid : b'.topicId = b.topicId)
    (hconfig : b'.config = b.config) (hbase : b'.seqBase = b.seqBase)
    (hfloors : b.floors.Le b'.floors)
    (hlive : ∀ q r, b.index.live q = some r → b'.index.live q = some r) : Restored s fed b' where
  seqBase := hbase.trans h.seqBase
  idle := by rw [hid, hconfig]; exact h.idle
  positive := by rw [hid]; exact h.positive
  back q r hq := by
    rw [hid] at hq ⊢
    rcases h.back q r hq with hl | ⟨hle, hwhy⟩
    · exact Or.inl (hlive q r hl)
    · exact Or.inr ⟨hle.trans hfloors.top, hwhy⟩
  forth _ _ _ := Or.inr hfed

theorem noteSourceTrim (hfed : fed) : Restored s fed b.noteSourceTrim := by
  refine h.derive hfed rfl rfl rfl ⟨le_rfl, le_rfl, le_rfl, le_max_left _ _⟩ ?_
  intro q r hq
  have hholes := live_pushAll_holes b.index 1 q
  exact hholes.trans hq

theorem append (hfed : fed) (records : List StoredRecord) : Restored s fed (b.append records) := by
  refine h.derive hfed (append_topicId b _) (append_config b _) (append_seqBase b _) ?_ ?_
  · rw [append_floors]
    exact Floors.Le.refl _
  · intro q r hq
    rw [append_index]
    exact live_pushAll_of_live hq records

theorem withConfig {config : TopicConfig} {s' : Registry Blob} (hacked : s'.acked = s.acked)
    (hlimited : s.limited ⊆ s'.limited) (hconfig : b.topicId ∉ s'.limited → config.limits = false) :
    Restored s' fed { b with config := config } where
  seqBase := h.seqBase
  idle := hconfig
  positive q r hq := h.positive q r (by rw [← hacked]; exact hq)
  back q r hq := (h.back q r (by rw [← hacked]; exact hq)).imp_right fun hfloor =>
    ⟨hfloor.1, hfloor.2.imp_left fun hmem => hlimited hmem⟩
  forth q r hq := (h.forth q r hq).imp_left fun hmem => by rw [hacked]; exact hmem

end

theorem evictWatermark (S : Serde Blob) (h : Restored s fed b) (id evict expiry earliest ts : Nat) :
    Restored s fed (b.replay S (.evictWatermark id evict expiry earliest ts)) where
  seqBase := h.seqBase
  idle := h.idle
  positive := h.positive
  back q r hq := by
    have hle : b.floors.top ≤ (b.replay S (.evictWatermark id evict expiry earliest ts)).floors.top :=
      Floors.Le.top ⟨le_max_left _ _, le_max_left _ _, le_rfl, le_rfl⟩
    exact (h.back q r hq).imp_right fun hfloor => ⟨hfloor.1.trans hle, hfloor.2⟩
  forth := h.forth

end Restored

variable {S : Serde Blob} {now : Int} {s : Registry Blob} {b : TopicState}

theorem replayRecord_stored (hS : S.RoundTrips) (r : RecordIn) (h0 : 0 ≤ now) (h1 : now < 2 ^ 63) :
    replayRecord S now.toNat r.node r.tag (encodeRecordPayload S r.data r.meta) =
      r.stored S now := by
  have hts : asI64 now.toNat = now := by
    unfold asI64
    rw [BitVec.toInt_eq_toNat_of_lt] <;> simp only [BitVec.toNat_ofNat] <;> omega
  unfold replayRecord RecordIn.stored
  rw [decodeRecordPayload_encodeRecordPayload S hS, hts]

theorem TopicState.append_of_ne_nil (b : TopicState) {records : List StoredRecord}
    (h : records ≠ []) :
    b.append records = { b with
      index := b.index.pushAll records
      headSeq := b.index.tail + records.length - 1
      bytesRetained := b.bytesRetained + (records.map (·.bytes)).sum
      liveCount := b.liveCount + records.length } := by
  have hlen : records.length ≠ 0 := fun h0 => h (length_eq_zero_iff.mp h0)
  simp [append, stageAppend, publishStagedNoSeal, StagedAppend.publishHead, hlen]

/-! ### The frames of a batch -/

theorem TopicState.append_cons (b : TopicState) (r : StoredRecord) (rs : List StoredRecord) :
    b.append (r :: rs) = (b.append [r]).append rs := by
  cases rs with
  | nil => rfl
  | cons r' rs =>
    rw [append_of_ne_nil b (cons_ne_nil r _), append_singleton,
      append_of_ne_nil _ (cons_ne_nil r' rs)]
    simp only [pushAll_cons, tail_push, length_cons, map_cons,
      sum_cons]
    congr 1 <;> omega

/-- A record as replay builds it from its frame. -/
def replayedRecord (S : Serde Blob) (now : Int) (r : StoredRecord) : StoredRecord :=
  replayRecord S now.toNat r.node r.tag (encodeRecordPayload S r.data r.meta)

theorem TopicState.foldl_appendFrames {step : TopicState → WalRecord Blob → TopicState}
    (hstep : ∀ b f, f.appendSeq? ≠ none → step b f = b.replay S f) (id : Nat) (now : Int)
    (records : List StoredRecord) (hp : b.config.usesPersistentRecordStore = true)
    (hdense : b.index.tail = b.headSeq + 1) :
    (List.zipWith (WritePath.appendFrame S id now)
        (List.range' (b.headSeq + 1) records.length) records).foldl step b =
      b.append (records.map (replayedRecord S now)) := by
  induction records generalizing b with
  | nil => rfl
  | cons r records ih =>
    have hone : step b (WritePath.appendFrame S id now (b.headSeq + 1) r) =
        b.append [replayedRecord S now r] := by
      rw [hstep _ _ (by simp [WritePath.appendFrame, WalRecord.appendSeq?])]
      refine (replay_append hp id _ _ _ _ _).trans ?_
      rw [if_pos rfl]
      rfl
    have hhead : (b.append [replayedRecord S now r]).headSeq = b.headSeq + 1 :=
      append_headSeq hdense _
    have hdense' : (b.append [replayedRecord S now r]).index.tail =
        (b.append [replayedRecord S now r]).headSeq + 1 := by
      rw [hhead, append_index, tail_pushAll, hdense]
      rfl
    have hp' : (b.append [replayedRecord S now r]).config.usesPersistentRecordStore = true := by
      rw [append_config]
      exact hp
    have hrest := ih hp' hdense'
    rw [hhead] at hrest
    rw [map_cons, length_cons, range'_succ, zipWith_cons_cons,
      foldl_cons, hone, hrest, ← append_cons]

theorem map_replayedRecord_stored (hS : S.RoundTrips) (h0 : 0 ≤ now) (h1 : now < 2 ^ 63)
    (records : List RecordIn) :
    (records.map fun r => r.stored S now).map (replayedRecord S now) =
      records.map fun r => r.stored S now := by
  rw [map_map]
  exact map_congr_left fun r _ => replayRecord_stored hS r h0 h1

def Registry.ack (s : Registry Blob) (acks : List (Nat × Nat × StoredRecord)) : Registry Blob :=
  { s with acked := s.acked ++ acks }

theorem mem_acks_iff {id start q : Nat} {rs : List StoredRecord} {r : StoredRecord} :
    (id, q, r) ∈ List.zipWith (fun q r => (id, q, r)) (List.range' start rs.length) rs ↔
      start ≤ q ∧ rs[q - start]? = some r := by
  induction rs generalizing start with
  | nil => simp
  | cons x rs ih =>
    rw [length_cons, range'_succ, zipWith_cons_cons, mem_cons, ih]
    rcases Nat.lt_trichotomy q start with hq | rfl | hq
    · simp [hq.not_ge, hq.ne, Nat.not_le.mpr (Nat.lt_succ_of_lt hq)]
    · simp [eq_comm]
    · rw [show q - start = q - (start + 1) + 1 by omega, getElem?_cons_succ]
      simp [hq.ne', hq.le, Nat.succ_le_of_lt hq]

/-- **A batch**: its records are acknowledged, and live behind the head. -/
theorem Restored.appendBatch (h : Restored s False b) {stored : List StoredRecord}
    (hwhole : ∀ r ∈ stored, r.deleted = false) (hpos : 1 ≤ b.index.tail) :
    Restored (s.ack (List.zipWith (fun q r => (b.topicId, q, r))
      (List.range' b.index.tail stored.length) stored)) False (b.append stored) := by
  refine ⟨?_, ?_, ?_, ?_, ?_⟩
  · rw [append_seqBase]
    exact h.seqBase
  · rw [append_topicId, append_config]
    exact h.idle
  all_goals
    rw [append_topicId]
    intro q r hq
  · rcases mem_append.mp hq with hq | hq
    · exact h.positive q r hq
    · exact hpos.trans (mem_acks_iff.mp hq).1
  · rw [append_index, append_floors]
    rcases mem_append.mp hq with hq | hq
    · exact (h.back q r hq).imp_left fun hlive => live_pushAll_of_live hlive stored
    · obtain ⟨hle, hr⟩ := mem_acks_iff.mp hq
      left
      rw [live_pushAll, if_neg hle.not_gt, hr, Option.filter_some,
        hwhole r (mem_of_getElem? hr)]
      rfl
  · rw [append_index, live_pushAll] at hq
    left
    split at hq
    · exact mem_append_left _ ((h.forth q r hq).resolve_right id)
    · rename_i hlt
      exact mem_append_right _ (mem_acks_iff.mpr ⟨not_lt.mp hlt,
        (Option.filter_eq_some_iff.mp hq).1⟩)

/-! ## The replayed topic against the live one -/

/-- The live topic `b` and the topic `c` its frames replay to. -/
structure Agrees (s : Registry Blob) (b c : TopicState) : Prop where
  topicId : c.topicId = b.topicId
  config : c.config = b.config
  restored : Restored s False c
  dense : c.index.tail = c.headSeq + 1
  reserved : c.reservedHead ≤ c.headSeq
  liveDense : b.index.tail = b.headSeq + 1
  head : b.topicId ∉ s.derived → c.headSeq = b.headSeq

namespace Agrees

variable {s : Registry Blob} {b c : TopicState}

variable {s' : Registry Blob} {config : TopicConfig} {b' : TopicState}

theorem mono (h : Agrees s b c)
    (hacked : ∀ q r, (b.topicId, q, r) ∈ s'.acked ↔ (b.topicId, q, r) ∈ s.acked)
    (hlimited : s.limited ⊆ s'.limited) (hderived : s.derived ⊆ s'.derived) : Agrees s' b c where
  topicId := h.topicId
  config := h.config
  restored := h.restored.mono (by rw [h.topicId]; exact hacked) hlimited
  dense := h.dense
  reserved := h.reserved
  liveDense := h.liveDense
  head hid := h.head fun hmem => hid (hderived hmem)

theorem new {name : String} {id : Nat} (hacked : ∀ q r, (id, q, r) ∉ s.acked)
    (hlimits : id ∉ s.limited → config.limits = false) :
    Agrees s (TopicState.new name id config seqBaseDefault)
      (TopicState.new name id config seqBaseDefault) where
  topicId := rfl
  config := rfl
  restored :=
    { seqBase := rfl
      idle := hlimits
      positive := fun q r hq => absurd hq (hacked q r)
      back := fun q r hq => absurd hq (hacked q r)
      forth := fun q r hq => by
        have hnone : (TopicIndex.new seqBaseDefault).live q = none := by
          simp [TopicIndex.live]
        exact absurd (hnone.symm.trans hq) (by simp) }
  dense := tail_new seqBaseDefault
  reserved := le_rfl
  liveDense := tail_new seqBaseDefault
  head _ := rfl

theorem steady (h : Agrees s b c) (hst : TopicState.Steady b b') :
    Agrees s b' c where
  topicId := h.topicId.trans hst.topicId.symm
  config := h.config.trans hst.config.symm
  restored := h.restored
  dense := h.dense
  reserved := h.reserved
  liveDense := by rw [hst.tail, hst.headSeq]; exact h.liveDense
  head hid := by
    rw [hst.headSeq]
    exact h.head fun hmem => hid (by rw [hst.topicId]; exact hmem)

theorem steady_replayed (h : Agrees s b c) {c' : TopicState} (hst : TopicState.Steady c c')
    (hrestored : Restored s False c') : Agrees s b c' where
  topicId := hst.topicId.trans h.topicId
  config := hst.config.trans h.config
  restored := hrestored
  dense := by rw [hst.tail, hst.headSeq]; exact h.dense
  reserved := by rw [hst.reservedHead, hst.headSeq]; exact h.reserved
  liveDense := h.liveDense
  head hid := hst.headSeq.trans (h.head hid)

theorem retained (h : Agrees s b c) (S : Serde Blob) (b₀ : TopicState) (now : Int) :
    Agrees s b (c.replayAll S (Registry.retainFrames b₀ now)) := by
  unfold Registry.retainFrames
  split
  · exact h.steady_replayed ⟨rfl, rfl, rfl, rfl, rfl, rfl, rfl, le_rfl, rfl⟩
      (h.restored.evictWatermark S 0 _ _ 0 0)
  · exact h

theorem put (h : Agrees s b c) (hacked : s'.acked = s.acked) (hlimited : s.limited ⊆ s'.limited)
    (hderived : s'.derived = s.derived) (hconfig : b.topicId ∉ s'.limited → config.limits = false)
    (now now' : Int) :
    Agrees s' ({ b with config := config }.enforceRetention now)
      ({ c with config := config }.enforceRetention now') := by
  have hset : Agrees s' { b with config := config } { c with config := config } :=
    { topicId := h.topicId
      config := rfl
      restored := h.restored.withConfig hacked hlimited (by rw [h.topicId]; exact hconfig)
      dense := h.dense
      reserved := h.reserved
      liveDense := h.liveDense
      head := fun hid => h.head (by rw [← hderived]; exact hid) }
  exact (hset.steady (steady_enforceRetention _ now)).steady_replayed
    (steady_enforceRetention _ now') (hset.restored.enforceRetention now')

theorem derived (h : Agrees s b c) (hacked : s'.acked = s.acked)
    (hlimited : s'.limited = s.limited) (hmem : b.topicId ∈ s'.derived)
    (hid : b'.topicId = b.topicId) (hconfig : b'.config = b.config)
    (hdense : b'.index.tail = b'.headSeq + 1) : Agrees s' b' c where
  topicId := h.topicId.trans hid.symm
  config := h.config.trans hconfig.symm
  restored := h.restored.mono (by rw [hacked]; exact fun _ _ => Iff.rfl)
    (by rw [hlimited]; exact fun _ hx => hx)
  dense := h.dense
  reserved := h.reserved
  liveDense := hdense
  head hnot := absurd (by rw [hid]; exact hmem) hnot

theorem write {S : Serde Blob} (hS : S.RoundTrips) (h : Agrees s b c)
    (hclass : b.config.durabilityClass = .fsync) (hderived : b.topicId ∉ s.derived)
    {records : List RecordIn} {now : Int} (h0 : 0 ≤ now) (h1 : now < 2 ^ 63)
    {stored : List StoredRecord} (hstored : stored = records.map fun r => r.stored S now) :
    Agrees
      (s.ack (List.zipWith (fun q r => (b.topicId, q, r)) (b.stageAppend stored).2.seqs stored))
      (b.append stored) (c.replayAll S (List.zipWith (WritePath.appendFrame S b.topicId now)
        (b.stageAppend stored).2.seqs stored)) := by
  have hp : c.config.usesPersistentRecordStore = true := by
    rw [h.config, TopicConfig.usesPersistentRecordStore, hclass]
    rfl
  have hhead := h.head hderived
  have htail : c.index.tail = b.index.tail := by rw [h.dense, hhead, h.liveDense]
  have hseqs : (b.stageAppend stored).2.seqs = range' c.index.tail stored.length := by
    rw [htail]
    rfl
  have hreplay : c.replayAll S (zipWith (WritePath.appendFrame S b.topicId now)
      (range' c.index.tail stored.length) stored) = c.append stored := by
    have hframes := foldl_appendFrames (S := S) (fun _ _ _ => rfl) b.topicId now stored hp h.dense
    rw [hstored, map_replayedRecord_stored hS h0 h1, ← hstored] at hframes
    rw [h.dense]
    exact hframes
  have hwhole : ∀ r ∈ stored, r.deleted = false := by
    intro r hr
    rw [hstored] at hr
    obtain ⟨r', -, rfl⟩ := mem_map.mp hr
    rfl
  have hrestored := h.restored.appendBatch hwhole (by rw [h.dense]; exact Nat.le_add_left _ _)
  rw [h.topicId] at hrestored
  rw [hseqs, hreplay]
  refine ⟨?_, ?_, hrestored, ?_, ?_, ?_, fun _ => ?_⟩
  · rw [append_topicId, append_topicId]
    exact h.topicId
  · rw [append_config, append_config]
    exact h.config
  · rw [append_index, tail_pushAll, append_headSeq h.dense, h.dense]
    omega
  · have hreserved : (c.append stored).reservedHead = c.reservedHead := by
      unfold append publishStagedNoSeal
      split <;> rfl
    rw [append_headSeq h.dense, hreserved]
    exact h.reserved.trans (Nat.le_add_right _ _)
  · rw [append_index, tail_pushAll, append_headSeq h.liveDense, h.liveDense]
    omega
  · rw [append_headSeq h.dense, append_headSeq h.liveDense, hhead]

end Agrees

end Topics
