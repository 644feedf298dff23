import Topics.TopicRun

/-!
# Evicted records stay evicted

What a read has reported as lost to a cap or to TTL must not come back after a crash.  TTL
and byte-cap floors are logged before they are applied; a record-cap floor is only computed
again from the cap in force, and replay restores floors without reclaiming slots.
-/

namespace Topics

open Lib TopicState List Option TopicIndex

variable {Blob : Type}

/-! ## What a response says -/

namespace Response

/-- The `earliest_seq` a read reported. -/
def earliestSeq : Response → Nat
  | .diff d => d.earliestSeq
  | .state _ earliestSeq _ _ => earliestSeq

/-- The tombstone a read returned for records lost to a cap or to TTL.  A `recreated`
tombstone reports a cursor from another instance of the topic, not an eviction. -/
def lossTombstone : Response → Option Tombstone
  | .diff d => d.tombstone.filter fun t => t.reason ≠ .recreated
  | .state .. => none

def ReportsEvicted (p : Response) (q : Nat) : Prop :=
  q < p.earliestSeq ∨ ∃ t, p.lossTombstone = some t ∧ t.gapFrom ≤ q ∧ q ≤ t.gapTo

def Delivers (p : Response) (q : Nat) : Prop :=
  match p with
  | .diff d => ∃ o ∈ d.records, o.seq = q
  | .state .. => False

/-- Everything the read reported as evicted lies below `bound`. -/
structure Within (bound : Nat) (p : Response) : Prop where
  earliest : p.earliestSeq ≤ bound
  tombstone : ∀ t, p.lossTombstone = some t → t.gapTo < bound

theorem Within.lt {bound q : Nat} {p : Response} (h : p.Within bound) (hq : p.ReportsEvicted q) :
    q < bound := by
  rcases hq with hq | ⟨t, ht, -, hq⟩
  · exact hq.trans_le h.earliest
  · exact hq.trans_lt (h.tombstone t ht)

theorem Within.mono {bound bound' : Nat} {p : Response} (h : p.Within bound)
    (hle : bound ≤ bound') : p.Within bound' :=
  ⟨h.earliest.trans hle, fun t ht => lt_of_lt_of_le (h.tombstone t ht) hle⟩

/-- What two reads, the second one later, have to agree on. -/
structure Consistent (old new : Response) : Prop where
  earliest : old.earliestSeq ≤ new.earliestSeq
  kept : ∀ q, old.ReportsEvicted q → ¬ new.Delivers q

end Response

namespace TopicState

/-- The live records at or above `earliest_seq`. -/
def liveFrom (b : TopicState) : List StoredRecord :=
  (b.index.records.drop (b.earliestSeq - b.index.baseSeq)).filter fun r => !r.deleted

/-- `count` and `bytes` are those of the live records at or above `earliest_seq`. -/
structure CountsLive (b : TopicState) : Prop where
  count : b.liveCount = b.liveFrom.length
  bytes : b.bytesRetained = (b.liveFrom.map (·.bytes)).sum

variable {b : TopicState}

theorem Plain.earliestSeq_eq (h : b.Plain) :
    b.earliestSeq = b.floors.top + 1 := by
  have := h.base_le
  have := h.top_le
  unfold earliestSeq
  rw [h.earliestSeq_floors]
  omega

theorem Plain.evictEarliestSeq_eq (h : b.Plain) :
    b.evictEarliestSeq = b.floors.top + 1 := by
  have := h.deleteFloor
  have := h.top_le
  have := h.seqBase
  unfold evictEarliestSeq Floors.evictEarliest Floors.involuntary seqBaseDefault
    Floors.top at *
  omega

theorem Plain.countsLive (h : b.Plain) (hs : b.Settled) : b.CountsLive := by
  have hall : b.liveFrom = b.index.records := by
    have hzero : b.earliestSeq - b.index.baseSeq = 0 := by
      rw [h.earliestSeq_eq]
      exact Nat.sub_eq_zero_of_le hs
    unfold liveFrom
    rw [hzero, drop_zero, filter_eq_self]
    intro r hr
    rw [h.whole r hr]
    rfl
  exact ⟨by rw [hall]; exact h.count, by rw [hall]; exact h.bytes⟩

theorem Plain.within_diff (h : b.Plain) (resolve : Nat → Value × Option Value) (req : DiffRequest)
    (now : Int) :
    (Response.diff (b.diff resolve req now)).Within b.evictEarliestSeq := by
  constructor
  · change b.earliestSeq ≤ _
    rw [h.earliestSeq_eq, h.evictEarliestSeq_eq]
  · intro t ht
    obtain ⟨ht, hreason⟩ := filter_eq_some_iff.mp ht
    change b.diffTombstone req = some t at ht
    unfold diffTombstone at ht
    split at ht
    · cases ht
      simp at hreason
    · obtain ⟨hlt, ⟨⟩⟩ := ite_none_right_eq_some.mp ht
      change b.evictEarliestSeq - 1 < _
      omega

end TopicState

/-! ## The live topic and its replay -/

/-- The evict floor a frame carries; `0` unless it is an `EvictWatermark`. -/
def WalRecord.evictMark : WalRecord Blob → Nat
  | .evictWatermark _ evictFloor _ _ _ => evictFloor
  | _ => 0

def loggedEvict (log : List (WalRecord Blob)) : Nat :=
  (log.map WalRecord.evictMark).foldr max 0

theorem loggedEvict_append (log frames : List (WalRecord Blob)) :
    loggedEvict (log ++ frames) = max (loggedEvict log) (loggedEvict frames) := by
  unfold loggedEvict
  induction log with
  | nil => simp
  | cons f log ih =>
    rw [cons_append, map_cons, map_cons, foldr_cons, foldr_cons, ih,
      Nat.max_assoc]

theorem loggedEvict_append_silent (log : List (WalRecord Blob)) {frames : List (WalRecord Blob)}
    (h : ∀ f ∈ frames, f.evictMark = 0) : loggedEvict (log ++ frames) = loggedEvict log := by
  have hzero : loggedEvict frames = 0 := by
    induction frames with
    | nil => rfl
    | cons f frames ih =>
      have hrest := ih fun g hg => h g (mem_cons_of_mem f hg)
      change max f.evictMark (loggedEvict frames) = 0
      rw [h f mem_cons_self, hrest]
      rfl
  rw [loggedEvict_append, hzero, Nat.max_zero]

/-- The update keeps what was evicted computable: some limit stays once anything was evicted,
and the new record cap, or a logged watermark, covers the evict floor. -/
def CapsCovered (log : List (WalRecord Blob)) (b : TopicState) (c : TopicConfig) : Prop :=
  (c.limits = true ∨ b.floors.evictFloor = 0 ∧ b.floors.expiryFloor = 0) ∧
    b.floors.evictFloor ≤
      max (loggedEvict log) (if c.capRecords > 0 then b.headSeq - c.capRecords else 0)

instance (log : List (WalRecord Blob)) (b : TopicState) (c : TopicConfig) :
    Decidable (CapsCovered log b c) :=
  inferInstanceAs (Decidable (_ ∧ _))

/-- The live topic `L`, and `R`, which replay has built from the log so far. -/
structure Covered (logged : Nat) (L R : TopicState) : Prop where
  plain : L.Plain
  settled : L.Settled
  plain' : R.Plain
  config : R.config = L.config
  headSeq : R.headSeq = L.headSeq
  reserved : R.reservedHead ≤ R.headSeq
  evict : L.floors.evictFloor ≤ max R.floors.evictFloor L.capFloor
  expiry : L.floors.expiryFloor ≤ R.floors.expiryFloor
  logged_le : logged ≤ R.floors.evictFloor
  settled' : L.config.limits = false ∨ L.floors.evictFloor = 0 ∧ L.floors.expiryFloor = 0 →
    R.Settled

namespace Covered

variable {logged : Nat} {L R : TopicState} (h : Covered logged L R)

include h

theorem setConfig {c : TopicConfig}
    (hlimits : c.limits = true ∨ L.floors.evictFloor = 0 ∧ L.floors.expiryFloor = 0)
    (hcap : L.floors.evictFloor ≤ max logged ({ L with config := c } : TopicState).capFloor)
    (clock : Int) :
    Covered logged { L with config := c } ({ R with config := c }.enforceRetention clock) := by
  have hst := steady_enforceRetention { R with config := c } clock
  have hle := floors_le_enforceRetention { R with config := c } clock
  have hlogged : logged ≤ ({ R with config := c }.enforceRetention clock).floors.evictFloor :=
    h.logged_le.trans hle.evict
  have hR := h.plain'.setConfig c
  have hset : ({ R with config := c } : TopicState).retentionIdle = true →
      ({ R with config := c } : TopicState).Settled := by
    intro hidle
    rcases of_retentionIdle hidle with h0 | hno
    · exact lt_of_le_of_lt (hR.top_le.trans h0.le) hR.base
    · rcases hlimits with hl | hzero
      · rw [hno] at hl
        cases hl
      · exact h.settled' (.inr hzero)
  refine ⟨h.plain.setConfig c, h.settled, hR.enforceRetention clock, hst.config, ?_, ?_, ?_,
    h.expiry.trans hle.expiry, hlogged, fun _ => hR.settled_enforceRetention clock hset⟩
  · exact hst.headSeq.trans h.headSeq
  · rw [hst.reservedHead, hst.headSeq]
    exact h.reserved
  · refine hcap.trans ?_
    omega

theorem append {records : List StoredRecord} (hr : ∀ r ∈ records, r.deleted = false) :
    Covered logged (L.append records) (R.append records) := by
  have hhead := append_headSeq h.plain.tail records
  have hhead' := append_headSeq h.plain'.tail records
  have hres : (R.append records).reservedHead = R.reservedHead := by
    unfold TopicState.append
    rw [publishStagedNoSeal_reservedHead]
    rfl
  have hcap : L.capFloor ≤ (L.append records).capFloor := by
    unfold capFloor
    rw [append_config, hhead]
    split <;> omega
  refine ⟨h.plain.append hr, ?_, h.plain'.append hr, ?_, ?_, ?_, ?_, ?_, ?_, ?_⟩
  · unfold TopicState.Settled
    rw [append_floors, append_index, pushAll_baseSeq]
    exact h.settled
  · rw [append_config, append_config]
    exact h.config
  · rw [hhead, hhead', h.headSeq]
  · rw [hres, hhead']
    exact h.reserved.trans (Nat.le_add_right _ _)
  · rw [append_floors, append_floors]
    refine h.evict.trans ?_
    omega
  · rw [append_floors, append_floors]
    exact h.expiry
  · rw [append_floors]
    exact h.logged_le
  · intro hcase
    rw [append_config, append_floors] at hcase
    unfold TopicState.Settled
    rw [append_floors, append_index, pushAll_baseSeq]
    exact h.settled' hcase

theorem retain_quiet {now : Int} (hidle : L.retentionIdle = false)
    (hquiet : (L.planRetention now).durableAdvance = false) :
    Covered logged (L.enforceRetention now) R := by
  have hst := steady_enforceRetention L now
  have hfloors := enforceRetention_floors hidle now
  obtain ⟨hexp, hev⟩ := planRetention_of_not_durable hquiet
  have hcap : (L.enforceRetention now).capFloor = L.capFloor := by
    unfold capFloor
    rw [hst.config, hst.headSeq]
  refine ⟨h.plain.enforceRetention now, h.plain.settled_enforceRetention now fun _ => h.settled,
    h.plain', h.config.trans hst.config.symm, h.headSeq.trans hst.headSeq.symm, h.reserved, ?_, ?_,
    h.logged_le, ?_⟩
  · rw [hfloors, hcap]
    simp only [hev]
    exact max_le h.evict (le_max_right _ _)
  · rw [hfloors]
    simp only [hexp]
    exact h.expiry
  · rw [hst.config, hfloors]
    simp only [hev, hexp]
    intro hcase
    refine h.settled' (hcase.imp_right fun hz => ⟨?_, hz.2⟩)
    omega

theorem retain_logged {now : Int} (hidle : L.retentionIdle = false)
    (hdurable : (L.planRetention now).durableAdvance = true) :
    Covered (max logged (L.planRetention now).evictFloor) (L.enforceRetention now)
      { R with floors := { R.floors with
        evictFloor := max R.floors.evictFloor (L.planRetention now).evictFloor
        expiryFloor := max R.floors.expiryFloor (L.planRetention now).expiryFloor } } := by
  have hst := steady_enforceRetention L now
  have hfloors := enforceRetention_floors hidle now
  obtain ⟨hev, hexp⟩ := h.plain.planRetention_le now
  have htop := h.plain'.top_le
  rw [h.plain'.top_eq] at htop
  have hhead := h.headSeq
  refine ⟨h.plain.enforceRetention now, h.plain.settled_enforceRetention now fun _ => h.settled,
    ?_, h.config.trans hst.config.symm, h.headSeq.trans hst.headSeq.symm, h.reserved, ?_, ?_, ?_, ?_⟩
  · exact h.plain'.raiseFloors (by omega) (by omega) (le_max_left _ _) (le_max_left _ _)
  · rw [hfloors]
    simp only
    omega
  · rw [hfloors]
    exact le_max_right _ _
  · have := h.logged_le
    simp only
    omega
  · -- such a pass raises a floor above zero, and runs only under a limit
    intro hcase
    exfalso
    rw [hst.config, hfloors] at hcase
    rcases hcase with hno | hzero
    · rw [retentionIdle_of_limits hno] at hidle
      cases hidle
    · have hexp0 : (L.planRetention now).expiryFloor = 0 := hzero.2
      have hev0 : (L.planRetention now).evictFloor = 0 := hzero.1
      rw [planRetention_durableAdvance] at hdurable
      rcases Bool.or_eq_true_iff.mp hdurable with httl | hbytes
      · have httl := of_decide_eq_true httl
        rw [planRetention_expiryFloor] at hexp0
        omega
      · have hbytes := of_decide_eq_true hbytes
        rw [planRetention_evictFloor] at hev0
        omega

end Covered

/-! ## The run -/

namespace TopicRun

variable {L R : TopicState} {S : Serde Blob} {logged : Nat} {s s' : TopicRun Blob}
  {resolve : Nat → Value × Option Value} {a : TopicAction}

theorem covered_retain (S : Serde Blob) (clock : Int) {log : List (WalRecord Blob)} (now : Int)
    (hfs : L.config.durabilityClass = .fsync) (h : Covered (loggedEvict log) L R) :
    Covered (loggedEvict (log ++ Registry.retainFrames L now)) (L.enforceRetention now)
      ((Registry.retainFrames L now).foldl (replayOwn S clock) R) := by
  have hp := persistent_of_fsync hfs
  by_cases hidle : L.retentionIdle = true
  · rw [retainFrames_of_idle hidle, enforceRetention_of_idle hidle, append_nil]
    exact h
  · have hidle := Bool.eq_false_iff.mpr hidle
    rw [retainFrames_eq hp hidle]
    split
    · rename_i hd
      rw [loggedEvict_append]
      have hframe : loggedEvict ([.evictWatermark L.topicId (L.planRetention now).evictFloor
          (L.planRetention now).expiryFloor (max (L.planRetention now).evictFloor
          (L.planRetention now).expiryFloor + 1) now.toNat] : List (WalRecord Blob)) =
          (L.planRetention now).evictFloor := Nat.max_zero _
      rw [hframe]
      exact h.retain_logged hidle hd
    · rename_i hd
      rw [append_nil]
      exact h.retain_quiet hidle (Bool.eq_false_iff.mpr hd)

theorem mirrors_covered (hS : S.RoundTrips) (clock : Int) :
    Mirrors S clock CapsCovered fun log L R => Covered (loggedEvict log) L R where
  retain now hfs h := covered_retain S clock now hfs h
  append := by
    intro log L R records now h0 h1 hfs h
    have hp : R.config.usesPersistentRecordStore = true := by
      rw [h.config]
      exact persistent_of_fsync hfs
    have hsilent : ∀ f ∈ WritePath.appendFrames S L.topicId now
        (L.stageAppend (records.map fun r => r.stored S now)).2
        (records.map fun r => r.stored S now), f.evictMark = 0 := by
      intro f hf
      unfold WritePath.appendFrames at hf
      rw [← map_uncurry_zip_eq_zipWith] at hf
      obtain ⟨p, -, rfl⟩ := mem_map.mp hf
      rfl
    simp only
    rw [foldl_replayOwn_batch hS clock records h0 h1 L.topicId hp h.plain.tail h.plain'.tail h.headSeq,
      loggedEvict_append_silent log hsilent]
    apply h.append
    intro r hr
    obtain ⟨r', -, rfl⟩ := mem_map.mp hr
    rfl
  config := by
    intro log L R c ts now hfs hC h
    refine covered_retain S clock now hfs ?_
    rw [loggedEvict_append_silent log fun f hf => by rw [mem_singleton.mp hf]; rfl]
    exact h.setConfig hC.1 hC.2 clock
  mark := by
    intro log L R ts h
    rw [loggedEvict_append_silent log fun f hf => by rw [mem_singleton.mp hf]; rfl]
    exact h

/-! ## The reads -/

/-- What every read relies on and leaves behind. -/
structure Reading (s : TopicRun Blob) : Prop where
  plain : s.topic.Plain
  settled : s.topic.Settled
  within : ∀ p ∈ s.responses, p.Within s.topic.evictEarliestSeq
  consistent : s.responses.Pairwise Response.Consistent

namespace Reading

variable {S : Serde Blob} {resolve : Nat → Value × Option Value} {s : TopicRun Blob}
  (h : Reading s)

include h

theorem of_topic {s' : TopicRun Blob} (hresp : s'.responses = s.responses)
    (hp : s'.topic.Plain) (hs : s'.topic.Settled)
    (htop : s.topic.floors.top ≤ s'.topic.floors.top) : Reading s' := by
  refine ⟨hp, hs, fun p hmem => ?_, by rw [hresp]; exact h.consistent⟩
  rw [hresp] at hmem
  refine (h.within p hmem).mono ?_
  rw [h.plain.evictEarliestSeq_eq, hp.evictEarliestSeq_eq]
  exact Nat.succ_le_succ htop

theorem retain (now : Int) : Reading (s.retain now) :=
  h.of_topic rfl (h.plain.enforceRetention now)
    (h.plain.settled_enforceRetention now fun _ => h.settled)
    (floors_le_enforceRetention s.topic now).top

theorem appendBatch {stored : List StoredRecord} (hr : ∀ r ∈ stored, r.deleted = false)
    (now : Int) : Reading (s.appendBatch S stored now) := by
  obtain ⟨n, hn⟩ := appendBatch_topic (S := S) s stored now
  have hplain : ({ s.topic with reservedHead := n } : TopicState).Plain := h.plain.setReserved n
  refine h.of_topic (appendBatch_responses s stored now) ?_ ?_ ?_
  · rw [hn]
    exact hplain.append hr
  · rw [hn]
    unfold TopicState.Settled
    rw [append_floors, append_index, pushAll_baseSeq]
    exact h.settled
  · rw [hn, append_floors]

theorem write (records : List RecordIn) (now : Int) : Reading (s.write S records now) := by
  unfold TopicRun.write
  simp only
  split
  · exact h.retain now
  · refine Reading.retain ?_ now
    apply (h.retain now).appendBatch
    intro r hr
    obtain ⟨r', -, rfl⟩ := mem_map.mp hr
    rfl

theorem putTopic (c : TopicConfig) (now : Int) : Reading (s.putTopic S c now) := by
  unfold TopicRun.putTopic
  refine Reading.retain ?_ now
  exact h.of_topic rfl (h.plain.setConfig c) h.settled le_rfl

theorem snapshot (now : Int) : Reading (s.snapshot S resolve now) := by
  have hmark : Reading (s.logDurable [.checkpointMark 0 now.toNat]) :=
    h.of_topic rfl h.plain h.settled le_rfl
  have hpass := hmark.retain now
  exact hpass.of_topic rfl hpass.plain hpass.settled le_rfl

theorem respond {p : Response} (hwithin : p.Within s.topic.evictEarliestSeq)
    (hearliest : p.earliestSeq = s.topic.earliestSeq)
    (hdelivers : ∀ q, p.Delivers q → s.topic.evictEarliestSeq ≤ q) :
    Reading { s with responses := s.responses ++ [p] } := by
  refine ⟨h.plain, h.settled, fun p' hp' => ?_, ?_⟩
  · rcases mem_append.mp hp' with hp' | hp'
    · exact h.within p' hp'
    · cases mem_singleton.mp hp'
      exact hwithin
  · refine pairwise_append.mpr ⟨h.consistent, pairwise_singleton _ _, ?_⟩
    intro old hold new hnew
    cases mem_singleton.mp hnew
    have hbound := h.within old hold
    refine ⟨?_, fun q hq hd => ?_⟩
    · rw [hearliest, h.plain.earliestSeq_eq, ← h.plain.evictEarliestSeq_eq]
      exact hbound.earliest
    · exact absurd (hbound.lt hq) ((hdelivers q hd).not_gt)

theorem diff (req : DiffRequest) (now : Int) :
    Reading { s with responses := s.responses ++ [.diff (s.topic.diff resolve req now)] } := by
  refine h.respond (h.plain.within_diff resolve req now) rfl ?_
  rintro q ⟨o, ho, rfl⟩
  exact (seq_of_mem_diff ho).1

theorem topicState :
    Reading { s with
      responses := s.responses ++
        [.state s.topic.headSeq s.topic.earliestSeq s.topic.liveCount s.topic.bytesRetained] } := by
  refine h.respond ⟨?_, fun t ht => ?_⟩ rfl fun q hq => ?_
  · change s.topic.earliestSeq ≤ _
    rw [h.plain.earliestSeq_eq, h.plain.evictEarliestSeq_eq]
  · cases ht
  · cases hq

/-- **One call.** -/
theorem step {s' : TopicRun Blob} {a : TopicAction} (hstep : s.step S resolve a = some s') :
    Reading s' := by
  cases a with
  | write records now =>
    obtain ⟨-, ⟨⟩⟩ := ite_none_right_eq_some.mp hstep
    exact h.write records now
  | diff req now =>
    cases hstep
    exact (h.retain now).diff req now
  | topicState now =>
    cases hstep
    exact (h.retain now).topicState
  | putTopic c now =>
    obtain ⟨-, ⟨⟩⟩ := ite_none_right_eq_some.mp hstep
    exact h.putTopic c now
  | snapshot now =>
    cases hstep
    exact h.snapshot now

end Reading

theorem reading_init (spec : TopicSpec) : Reading (init spec : TopicRun Blob) :=
  ⟨plain_new _ _ _, settled_new _ _ _,
    nofun, .nil⟩

/-! ## Across a crash -/

/-- The recovered topic takes the place of the live one; the history goes on. -/
def restart (s : TopicRun Blob) (b : TopicState) : TopicRun Blob := { s with topic := b }

def isRead : TopicAction → Bool
  | .diff .. => true
  | .topicState .. => true
  | _ => false

theorem top_le_of_covered (h : Covered logged L R) (now : Int) :
    L.floors.top ≤ (R.enforceRetention now).floors.top := by
  have hcap : R.capFloor = L.capFloor := by
    unfold capFloor
    rw [h.config, h.headSeq]
  have hev := h.evict
  have hexp := h.expiry
  rw [h.plain.top_eq, (h.plain'.enforceRetention now).top_eq]
  by_cases hidle : R.retentionIdle = true
  · rw [enforceRetention_of_idle hidle]
    rcases of_retentionIdle hidle with h0 | hno
    · have htop := h.plain.top_le
      rw [h.plain.top_eq, ← h.headSeq, h0] at htop
      omega
    · -- without limits there is no record cap to compute a floor from
      have hzero : R.capFloor = 0 := by
        unfold TopicConfig.limits at hno
        unfold capFloor
        simp only [ne_eq, decide_eq_false_iff_not, not_or, not_not] at hno
        rw [if_neg (by omega)]
      omega
  · have hidle := Bool.eq_false_iff.mpr hidle
    have hle := evictFloor_le_planRetention R now
    have hle' := capFloor_le_planRetention R now
    have hle'' := expiryFloor_le_planRetention R now
    rw [enforceRetention_floors hidle]
    simp only
    omega

theorem reading_restart (h : Reading s) (hcov : Covered logged s.topic R) (now : Int) :
    Reading ((s.restart R).retain now) := by
  refine h.of_topic rfl (hcov.plain'.enforceRetention now) ?_ (top_le_of_covered hcov now)
  refine hcov.plain'.settled_enforceRetention now fun hidle => ?_
  rcases of_retentionIdle hidle with h0 | hno
  · exact lt_of_le_of_lt (hcov.plain'.top_le.trans h0.le) hcov.plain'.base
  · exact hcov.settled' (.inl (by rw [← hcov.config]; exact hno))

theorem reading_of_read (h : Reading s) (hcov : Covered logged s.topic R) (ha : isRead a = true)
    (hstep : (s.restart R).step S resolve a = some s') :
    Reading s' ∧ s.topic.floors.top ≤ s'.topic.floors.top := by
  cases a with
  | diff req now =>
    cases hstep
    exact ⟨(reading_restart h hcov now).diff req now, top_le_of_covered hcov now⟩
  | topicState now =>
    cases hstep
    exact ⟨(reading_restart h hcov now).topicState, top_le_of_covered hcov now⟩
  | _ => cases ha

theorem top_le_of_read (ha : isRead a = true) (hstep : s.step S resolve a = some s') :
    s.topic.floors.top ≤ s'.topic.floors.top := by
  cases a with
  | diff req now | topicState now =>
    cases hstep
    exact (floors_le_enforceRetention s.topic now).top
  | _ => cases ha

/-- Across a crash after `s`, a recovery at `clock` and any reads behind it: no read delivers a
record that an earlier one reported as evicted, the reported floors never fall, and the
counters are those of the live records. -/
def StaysEvicted (S : Serde Blob) (resolve : Nat → Value × Option Value) (spec : TopicSpec)
    (clock : Int) (s : TopicRun Blob) : Prop :=
  s.topic.CountsLive ∧
    ∃ b, spec.recover S clock s.log = some b ∧
      ∀ (reads : List TopicAction) (s' : TopicRun Blob), (∀ a ∈ reads, isRead a = true) →
        exec (step S resolve) (s.restart b) reads = some s' →
          s'.responses.Pairwise Response.Consistent ∧
            (reads ≠ [] → s.topic.earliestSeq ≤ s'.topic.earliestSeq ∧
              s.topic.evictEarliestSeq ≤ s'.topic.evictEarliestSeq ∧ s'.topic.CountsLive)

/-- **Evicted records stay evicted**, in every history of writes, reads and config updates of
an `fsync` topic whose updates keep the caps covered. -/
theorem evicted_never_redelivered {S : Serde Blob} (hS : S.RoundTrips)
    {resolve : Nat → Value × Option Value} {spec : TopicSpec}
    (hfs : spec.config.durabilityClass = .fsync) {as : List TopicAction} {s : TopicRun Blob}
    (hclass : ∀ a ∈ as, keepsFsync a = true)
    (halong : Along (step S resolve) (OnUpdates CapsCovered) (init spec) as)
    (hrun : exec (step S resolve) (init spec) as = some s) (clock : Int) :
    StaysEvicted S resolve spec clock s := by
  have hplain := plain_new spec.name spec.topicId spec.config
  have hset := settled_new spec.name spec.topicId spec.config
  have hinit : Covered (loggedEvict ([] : List (WalRecord Blob))) spec.fresh spec.fresh :=
    ⟨hplain, hset, hplain, rfl, rfl, le_rfl, Nat.zero_le _, le_rfl, le_rfl, fun _ => hset⟩
  have hmir := (mirrors_covered hS clock).exec hS hfs hinit hclass halong hrun
  have hread : Reading s :=
    exec_invariant _ (fun _ _ _ h hstep => h.step hstep) (reading_init spec) hrun
  have hcov := hmir.related
  -- an `fsync` topic has no reservation ahead of its head
  have hhead : (s.replayed S clock spec).applyHeadWatermark = s.replayed S clock spec := by
    unfold applyHeadWatermark
    rw [if_neg hcov.reserved.not_gt]
  refine ⟨hread.plain.countsLive hread.settled, s.replayed S clock spec, ?_, ?_⟩
  · rw [hmir.recover_eq hS, hhead]
  · intro reads s' hreads hexec
    cases reads with
    | nil =>
      cases hexec
      exact ⟨hread.consistent, fun h => absurd rfl h⟩
    | cons a reads =>
      obtain ⟨s₁, hstep, hrest⟩ := (exec_cons_eq_some _).mp hexec
      have h₁ := reading_of_read hread hcov (hreads a mem_cons_self) hstep
      have h' : Reading s' ∧ s.topic.floors.top ≤ s'.topic.floors.top := by
        have hall : ∀ a ∈ reads, isRead a = true := fun a ha => hreads a (mem_cons_of_mem _ ha)
        exact exec_invariant_along _
          (I := fun t => Reading t ∧ s.topic.floors.top ≤ t.topic.floors.top)
          (fun t a t' h ha hs => ⟨h.1.step hs, h.2.trans (top_le_of_read ha.1 hs)⟩) h₁
          ((along_true _ s₁ reads).and_mem _ hall) hrest
      refine ⟨h'.1.consistent, fun _ => ⟨?_, ?_, h'.1.plain.countsLive h'.1.settled⟩⟩
      · rw [hread.plain.earliestSeq_eq, h'.1.plain.earliestSeq_eq]
        exact Nat.succ_le_succ h'.2
      · rw [hread.plain.evictEarliestSeq_eq, h'.1.plain.evictEarliestSeq_eq]
        exact Nat.succ_le_succ h'.2

/-! ### Concrete histories -/

/-- An `fsync` config with the given limits. -/
def limited (ttlMs capRecords capBytes : Nat) : TopicConfig :=
  { durable := true, ttlMs := ttlMs, capRecords := capRecords, capBytes := capBytes }

def blank : RecordIn := ⟨none, none, .null, none⟩

/-- Three records under a record cap of two, a read, and a tighter cap. -/
def tightenedCap : List TopicAction :=
  [.write [blank, blank, blank] 0, .diff {} 0, .putTopic (limited 0 1 0) 0]

/-- Five records under a cap of two, a read, and all limits removed. -/
def removedCap : List TopicAction :=
  [.write [blank, blank, blank, blank, blank] 0, .diff {} 0, .putTopic (limited 0 0 0) 0]

theorem evicted_never_redelivered_tightenedCap :
    ∃ s, exec (step Serde.identity fun _ => (.null, none)) (init ⟨"jobs", 1, limited 0 2 0, 0⟩)
        tightenedCap = some s ∧
      StaysEvicted Serde.identity (fun _ => (.null, none)) ⟨"jobs", 1, limited 0 2 0, 0⟩ 0 s := by
  have hclass : ∀ a ∈ tightenedCap, keepsFsync a = true := by decide
  have halong : Along (step Serde.identity fun _ => (.null, none)) (OnUpdates CapsCovered)
      (init ⟨"jobs", 1, limited 0 2 0, 0⟩) tightenedCap := by decide
  have hsome : (exec (step Serde.identity fun _ => (.null, none))
      (init ⟨"jobs", 1, limited 0 2 0, 0⟩) tightenedCap).isSome = true := by decide
  obtain ⟨s, hs⟩ := isSome_iff_exists.mp hsome
  exact ⟨s, hs, evicted_never_redelivered Serde.identity_roundTrips rfl hclass halong hs 0⟩

/-- What one read after the recovery shows: whether `earliest_seq` fell, and whether `count` is
that of the live records. -/
def firstRead (S : Serde Blob) (resolve : Nat → Value × Option Value) (spec : TopicSpec)
    (clock : Int) (s : TopicRun Blob) : Option (Bool × Bool) :=
  (spec.recover S clock s.log).bind fun b =>
    (exec (step S resolve) (s.restart b) [.diff {} clock]).map fun s' =>
      (decide (s.topic.earliestSeq ≤ s'.topic.earliestSeq),
        decide (s'.topic.liveCount = s'.topic.liveFrom.length))

theorem StaysEvicted.firstRead_eq {spec : TopicSpec} {clock : Int}
    (h : StaysEvicted S resolve spec clock s) :
    firstRead S resolve spec clock s = some (true, true) := by
  obtain ⟨-, b, hb, hreads⟩ := h
  have hall : ∀ a ∈ [TopicAction.diff {} clock], isRead a = true := by
    intro a ha
    rw [mem_singleton.mp ha]
    rfl
  obtain ⟨-, hfin⟩ := hreads [.diff {} clock] _ hall rfl
  obtain ⟨hearliest, -, hcount⟩ := hfin (cons_ne_nil _ _)
  unfold firstRead
  rw [hb]
  exact congrArg some (Prod.ext (decide_eq_true hearliest) (decide_eq_true hcount.count))

/-- Removing a cap undoes it.  A record cap of two reported `earliest_seq` 4 of five records;
with the cap removed, replay cannot compute the floor again and the first read starts at seq 1.
A byte cap of two logged its floor, but without limits nothing reclaims the slots below it, and
the counters include them. -/
theorem evicted_redelivered_removedCap :
    (∃ s, exec (step Serde.identity fun _ => (.null, none)) (init ⟨"jobs", 1, limited 0 2 0, 0⟩)
        removedCap = some s ∧
      firstRead Serde.identity (fun _ => (.null, none)) ⟨"jobs", 1, limited 0 2 0, 0⟩ 0 s =
        some (false, true) ∧
      ¬ StaysEvicted Serde.identity (fun _ => (.null, none)) ⟨"jobs", 1, limited 0 2 0, 0⟩ 0 s) ∧
    (∃ s, exec (step Serde.identity fun _ => (.null, none)) (init ⟨"jobs", 1, limited 0 0 2, 0⟩)
        removedCap = some s ∧
      firstRead Serde.identity (fun _ => (.null, none)) ⟨"jobs", 1, limited 0 0 2, 0⟩ 0 s =
        some (true, false) ∧
      ¬ StaysEvicted Serde.identity (fun _ => (.null, none)) ⟨"jobs", 1, limited 0 0 2, 0⟩ 0 s) := by
  refine ⟨⟨_, rfl, by decide, fun h => ?_⟩, ⟨_, rfl, by decide, fun h => ?_⟩⟩
  all_goals exact absurd h.firstRead_eq (by decide)

end TopicRun

end Topics
