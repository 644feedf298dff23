import Topics.EvictedRecords

/-!
# Replay keeps what the live topic kept

Replay enforces every config frame at the clock of the recovery, not at that of the update,
and counts the bytes of slots that the live topic had reclaimed.  So an update may evict on
replay what it never evicted live.
-/

namespace Topics

open Lib TopicState TopicIndex List Option

variable {Blob : Type}

/-! ## The updates replay enforces -/

/-- One frame: whether an `Append` was seen, and the TTL of the last update behind one. -/
def sweepFrame (S : Serde Blob) (p : Bool × Option Nat) : WalRecord Blob → Bool × Option Nat
  | .append .. => (true, p.2)
  | .topicConfig _ op _ _ =>
    let ttlMs := ((S.configFromSlice op.config).getD {}).ttlMs
    (p.1, if p.1 = true ∧ ttlMs > 0 then some ttlMs else p.2)
  | _ => p

def sweeps (S : Serde Blob) (log : List (WalRecord Blob)) : Bool × Option Nat :=
  log.foldl (sweepFrame S) (false, none)

/-- The TTL of the last update that found records in the log before it. -/
def sweptTtl (S : Serde Blob) (log : List (WalRecord Blob)) : Option Nat := (sweeps S log).2

/-- The update sets a byte cap only while nothing was evicted, no TTL comes with it and none
was swept, and it never raises or removes a TTL that was swept. -/
def TightensTtl (S : Serde Blob) (log : List (WalRecord Blob)) (b : TopicState)
    (c : TopicConfig) : Prop :=
  (c.capBytes = 0 ∨ b.floors.evictFloor = 0 ∧ b.floors.expiryFloor = 0 ∧ c.ttlMs = 0 ∧
      sweptTtl S log = none) ∧
    ∀ t ∈ sweptTtl S log, 0 < c.ttlMs ∧ asI64 c.ttlMs ≤ asI64 t

instance (S : Serde Blob) (log : List (WalRecord Blob)) (b : TopicState) (c : TopicConfig) :
    Decidable (TightensTtl S log b c) :=
  inferInstanceAs (Decidable ((_ ∨ _) ∧ ∀ t ∈ sweptTtl S log, _))

theorem sweeps_append (S : Serde Blob) (log frames : List (WalRecord Blob)) :
    sweeps S (log ++ frames) = frames.foldl (sweepFrame S) (sweeps S log) :=
  foldl_append

theorem sweeps_append_silent (S : Serde Blob) (log : List (WalRecord Blob))
    {frames : List (WalRecord Blob)} (h : ∀ f ∈ frames, ∀ p, sweepFrame S p f = p) :
    sweeps S (log ++ frames) = sweeps S log := by
  rw [sweeps_append]
  generalize sweeps S log = p
  induction frames with
  | nil => rfl
  | cons f frames ih =>
    rw [foldl_cons, h f mem_cons_self]
    exact ih fun g hg => h g (mem_cons_of_mem f hg)

theorem sweepFrame_retainFrames (S : Serde Blob) (b : TopicState) (now : Int) :
    ∀ f ∈ (Registry.retainFrames b now : List (WalRecord Blob)), ∀ p, sweepFrame S p f = p := by
  intro f hf p
  obtain ⟨_, _, _, _, rfl⟩ := Registry.mem_retainFrames hf
  rfl

theorem sweeps_appendFrames (S : Serde Blob) (log : List (WalRecord Blob)) (id : Nat) (now : Int)
    (g : StagedAppend) (records : List StoredRecord) :
    sweeps S (log ++ WritePath.appendFrames S id now g records) =
      ((sweeps S log).1 || !(WritePath.appendFrames S id now g records).isEmpty,
        (sweeps S log).2) := by
  have hall : ∀ f ∈ WritePath.appendFrames S id now g records,
      ∀ p, sweepFrame S p f = (true, p.2) := by
    intro f hf p
    unfold WritePath.appendFrames at hf
    rw [← map_uncurry_zip_eq_zipWith] at hf
    obtain ⟨x, -, rfl⟩ := mem_map.mp hf
    rfl
  rw [sweeps_append]
  generalize sweeps S log = p
  generalize WritePath.appendFrames S id now g records = frames at hall ⊢
  induction frames generalizing p with
  | nil => simp
  | cons f frames ih =>
    rw [foldl_cons, hall f mem_cons_self,
      ih (true, p.2) fun g hg => hall g (mem_cons_of_mem f hg)]
    simp

/-! ## The live topic and its replay -/

/-- Expired at the recovery clock under the TTL replay swept with. -/
def Swept (clock : Int) (ttl : Option Nat) (r : StoredRecord) : Prop :=
  ∃ t, ttl = some t ∧ i64SaturatingSub clock r.ts > asI64 t

/-- The live topic `L`, and `R`, which replay has built from a log with the sweeps `w`. -/
structure KeptLive (clock : Int) (w : Bool × Option Nat) (L R : TopicState) : Prop where
  plain : L.Plain
  settled : L.Settled
  plain' : R.Plain
  config : R.config = L.config
  headSeq : R.headSeq = L.headSeq
  reserved : R.reservedHead ≤ R.headSeq
  /-- No record, no `Append` frame. -/
  seen : w.1 = false → L.headSeq = 0
  /-- The TTL swept last is the one in force. -/
  ttl : ∀ t, w.2 = some t → w.1 = true ∧ 0 < t ∧ L.config.ttlMs = t
  evict : R.floors.evictFloor ≤ L.floors.evictFloor
  expiry : ∀ q r, L.index.live q = some r → q ≤ R.floors.expiryFloor → Swept clock w.2 r
  live : ∀ q r, L.index.live q = some r → R.index.live q = some r ∨ Swept clock w.2 r
  /-- Until something is evicted or swept, replay is exact. -/
  same : L.floors.top = 0 → w.2 = none → R = L

namespace KeptLive

variable {clock : Int} {w : Bool × Option Nat} {L R : TopicState} (h : KeptLive clock w L R)

include h

theorem retain (now : Int) : KeptLive clock w (L.enforceRetention now) R := by
  have hst := steady_enforceRetention L now
  have hle := floors_le_enforceRetention L now
  have hold : ∀ q r, (L.enforceRetention now).index.live q = some r → L.index.live q = some r :=
    fun q r => live_of_live_enforceRetention
  refine ⟨h.plain.enforceRetention now, h.plain.settled_enforceRetention now fun _ => h.settled,
    h.plain', h.config.trans hst.config.symm, h.headSeq.trans hst.headSeq.symm, h.reserved, ?_, ?_,
    h.evict.trans hle.evict, fun q r hq => h.expiry q r (hold q r hq),
    fun q r hq => h.live q r (hold q r hq), ?_⟩
  · rw [hst.headSeq]
    exact h.seen
  · rw [hst.config]
    exact h.ttl
  · intro htop hw
    have hself := h.plain.enforceRetention_eq_self htop
    rw [hself] at htop ⊢
    exact h.same htop hw

theorem raise {evictFloor expiryFloor : Nat} (hev : evictFloor ≤ L.floors.evictFloor)
    (hexp : expiryFloor ≤ L.floors.expiryFloor) :
    KeptLive clock w L { R with floors := { R.floors with
      evictFloor := max R.floors.evictFloor evictFloor
      expiryFloor := max R.floors.expiryFloor expiryFloor } } := by
  have htopL := h.plain.top_le
  have htopR := h.plain'.top_le
  have hhead := h.headSeq
  rw [h.plain.top_eq] at htopL
  rw [h.plain'.top_eq] at htopR
  refine { h with plain' := ?_, evict := ?_, expiry := ?_, same := ?_ }
  · exact h.plain'.raiseFloors (by omega) (by omega) (le_max_left _ _) (le_max_left _ _)
  · exact max_le h.evict hev
  · intro q r hq hle
    -- a live slot lies above the floors of the live topic
    have hlt := h.settled.top_lt_of_live hq
    rw [h.plain.top_eq] at hlt
    refine h.expiry q r hq ?_
    simp only at hle
    omega
  · intro htop hw
    have hRL := h.same htop hw
    rw [h.plain.top_eq] at htop
    subst hRL
    have h1 : max R.floors.evictFloor evictFloor = R.floors.evictFloor := by omega
    have h2 : max R.floors.expiryFloor expiryFloor = R.floors.expiryFloor := by omega
    simp only [h1, h2]

theorem append {records : List StoredRecord} (hr : ∀ r ∈ records, r.deleted = false) {seen : Bool}
    (hseen : seen = false → w.1 = false ∧ records = []) (hmono : w.1 = true → seen = true) :
    KeptLive clock (seen, w.2) (L.append records) (R.append records) := by
  have hhead := append_headSeq h.plain.tail records
  have hhead' := append_headSeq h.plain'.tail records
  have hplain := h.plain.append hr
  have hplain' := h.plain'.append hr
  have hres : (R.append records).reservedHead = R.reservedHead := by
    unfold TopicState.append
    rw [publishStagedNoSeal_reservedHead]
    rfl
  -- below the old tail the slots are the old ones, from there on those of the batch
  have hget : ∀ b : TopicState, b.Plain → b.headSeq = L.headSeq → ∀ q,
      (b.append records).index.live q =
        if q < L.headSeq + 1 then b.index.live q else records[q - (L.headSeq + 1)]? := by
    intro b hb hbh q
    rw [(hb.append hr).live_eq_get, hb.live_eq_get, append_index,
      get_pushAll, hb.tail, hbh]
  refine ⟨hplain, ?_, hplain', ?_, ?_, ?_, ?_, ?_, ?_, ?_, ?_, ?_⟩
  · unfold TopicState.Settled
    rw [append_floors, append_index, pushAll_baseSeq]
    exact h.settled
  · rw [append_config, append_config]
    exact h.config
  · rw [hhead, hhead', h.headSeq]
  · rw [hres, hhead']
    exact h.reserved.trans (Nat.le_add_right _ _)
  · intro hs
    obtain ⟨hw, hnil⟩ := hseen hs
    rw [hhead, hnil, h.seen hw]
    rfl
  · intro t ht
    rw [append_config]
    obtain ⟨hw, hpos, heq⟩ := h.ttl t ht
    exact ⟨hmono hw, hpos, heq⟩
  · rw [append_floors, append_floors]
    exact h.evict
  · intro q r hq hle
    rw [append_floors] at hle
    have htop := h.plain'.top_le
    rw [h.plain'.top_eq] at htop
    have hhd := h.headSeq
    rw [hget L h.plain rfl, if_pos (by omega)] at hq
    exact h.expiry q r hq hle
  · intro q r hq
    rw [hget L h.plain rfl] at hq
    rw [hget R h.plain' h.headSeq]
    split at hq
    · rename_i hlt
      rw [if_pos hlt]
      exact h.live q r hq
    · rename_i hlt
      rw [if_neg hlt]
      exact .inl hq
  · intro htop hw
    rw [append_floors] at htop
    rw [h.same htop hw]

end KeptLive

def sweepTtl (w : Bool × Option Nat) (ttlMs : Nat) : Bool × Option Nat :=
  (w.1, if w.1 = true ∧ ttlMs > 0 then some ttlMs else w.2)

theorem sweepTtl_eq_none {w : Bool × Option Nat} {ttlMs : Nat} (h : (sweepTtl w ttlMs).2 = none) :
    w.2 = none ∧ (ttlMs = 0 ∨ w.1 = false) := by
  unfold sweepTtl at h
  simp only at h
  split at h
  · cases h
  · rename_i hno
    refine ⟨h, ?_⟩
    by_cases hw : w.1 = true
    · left
      by_contra hpos
      exact hno ⟨hw, Nat.pos_of_ne_zero hpos⟩
    · exact .inr (Bool.eq_false_iff.mpr hw)

namespace KeptLive

variable {clock : Int} {w : Bool × Option Nat} {L R : TopicState} (h : KeptLive clock w L R)
  {c : TopicConfig}

include h

theorem setConfig_same (htop : L.floors.top = 0) (hw : w.2 = none)
    (hc : c.ttlMs = 0 ∨ w.1 = false) (now : Int) :
    { R with config := c }.enforceRetention clock = { L with config := c }.enforceRetention now := by
  rw [h.same htop hw]
  rcases hc with hc | hc
  · exact enforceRetention_of_ttl_zero hc clock now
  · have hidle : ({ L with config := c } : TopicState).retentionIdle = true := by
      unfold retentionIdle
      simp [h.seen hc]
    rw [enforceRetention_of_idle hidle, enforceRetention_of_idle hidle]

theorem swept_setConfig {r : StoredRecord}
    (httl : ∀ t ∈ w.2, 0 < c.ttlMs ∧ asI64 c.ttlMs ≤ asI64 t) (hr : Swept clock w.2 r) :
    Swept clock (sweepTtl w c.ttlMs).2 r := by
  obtain ⟨t, ht, hexp⟩ := hr
  obtain ⟨hpos, hle⟩ := httl t ht
  refine ⟨c.ttlMs, ?_, hle.trans_lt hexp⟩
  unfold sweepTtl
  exact if_pos ⟨(h.ttl t ht).1, hpos⟩

theorem swept_of_le_expiryFloor (httl : ∀ t ∈ w.2, 0 < c.ttlMs ∧ asI64 c.ttlMs ≤ asI64 t)
    {q : Nat} {r : StoredRecord} (hq : L.index.live q = some r)
    (hle : q ≤ ({ R with config := c }.enforceRetention clock).floors.expiryFloor) :
    Swept clock (sweepTtl w c.ttlMs).2 r := by
  by_cases hidle : ({ R with config := c } : TopicState).retentionIdle = true
  · rw [enforceRetention_of_idle hidle] at hle
    exact h.swept_setConfig httl (h.expiry q r hq hle)
  · have hidle := Bool.eq_false_iff.mpr hidle
    rw [enforceRetention_floors hidle] at hle
    simp only [planRetention_expiryFloor] at hle
    by_cases hold : q ≤ R.floors.expiryFloor
    · exact h.swept_setConfig httl (h.expiry q r hq hold)
    · rcases h.live q r hq with hlive | hswept
      · have hget : ({ R with config := c } : TopicState).index.get q = some r :=
          (live_eq_some.mp hlive).1
        have hfloor : q ≤ ({ R with config := c } : TopicState).ttlFloor clock := by omega
        rcases expired_of_le_ttlFloor hget hfloor with hexp | hle'
        · -- the scan ran over records, so the log has seen one
          obtain ⟨hpos, hexp⟩ := of_decide_eq_true hexp
          refine ⟨c.ttlMs, if_pos ⟨?_, hpos⟩, hexp⟩
          by_contra hw
          have hzero : R.headSeq = 0 := h.headSeq.trans (h.seen (Bool.eq_false_iff.mpr hw))
          unfold retentionIdle at hidle
          simp [hzero] at hidle
        · exact absurd hle' hold
      · exact h.swept_setConfig httl hswept

theorem evictFloor_setConfig (hcap : c.capBytes = 0) (now : Int) :
    ({ R with config := c }.enforceRetention clock).floors.evictFloor ≤
      ({ L with config := c }.enforceRetention now).floors.evictFloor := by
  have hsame : ({ R with config := c } : TopicState).retentionIdle =
      ({ L with config := c } : TopicState).retentionIdle := by
    unfold retentionIdle
    rw [h.headSeq]
  have hfloor : ({ R with config := c } : TopicState).capFloor =
      ({ L with config := c } : TopicState).capFloor := by
    unfold capFloor
    rw [h.headSeq]
  have hev := h.evict
  by_cases hidle : ({ L with config := c } : TopicState).retentionIdle = true
  · rw [enforceRetention_of_idle hidle,
      enforceRetention_of_idle (hsame.trans hidle)]
    exact hev
  · have hidle := Bool.eq_false_iff.mpr hidle
    rw [enforceRetention_floors hidle,
      enforceRetention_floors (hsame.trans hidle)]
    simp only
    rw [planRetention_evictFloor_of_capBytes_zero hcap,
      planRetention_evictFloor_of_capBytes_zero hcap, hfloor]
    simp only
    omega

theorem setConfig
    (hbytes : c.capBytes = 0 ∨ L.floors.evictFloor = 0 ∧ L.floors.expiryFloor = 0 ∧ c.ttlMs = 0 ∧
      w.2 = none)
    (httl : ∀ t ∈ w.2, 0 < c.ttlMs ∧ asI64 c.ttlMs ≤ asI64 t) (now : Int) :
    KeptLive clock (sweepTtl w c.ttlMs) ({ L with config := c }.enforceRetention now)
      ({ R with config := c }.enforceRetention clock) := by
  have hL := h.plain.setConfig c
  have hR := h.plain'.setConfig c
  have hst := steady_enforceRetention { L with config := c } now
  have hst' := steady_enforceRetention { R with config := c } clock
  have hle := floors_le_enforceRetention { L with config := c } now
  have hplain := hL.enforceRetention now
  have hplain' := hR.enforceRetention clock
  have hset : ({ L with config := c }.enforceRetention now).Settled :=
    hL.settled_enforceRetention now fun _ => h.settled
  have hold : ∀ q r, ({ L with config := c }.enforceRetention now).index.live q = some r →
      L.index.live q = some r :=
    fun q r hq => live_of_live_enforceRetention (b := { L with config := c }) hq
  have hevict : ({ R with config := c }.enforceRetention clock).floors.evictFloor ≤
      ({ L with config := c }.enforceRetention now).floors.evictFloor := by
    rcases hbytes with hcap | ⟨hev, hexp, hc, hw⟩
    · exact h.evictFloor_setConfig hcap now
    · have htop : L.floors.top = 0 := by
        rw [h.plain.top_eq]
        omega
      rw [h.setConfig_same htop hw (.inl hc) now]
  have hexpiry : ∀ q r, ({ L with config := c }.enforceRetention now).index.live q = some r →
      q ≤ ({ R with config := c }.enforceRetention clock).floors.expiryFloor →
        Swept clock (sweepTtl w c.ttlMs).2 r :=
    fun q r hq => h.swept_of_le_expiryFloor httl (hold q r hq)
  refine ⟨hplain, hset, hplain', hst'.config.trans hst.config.symm,
    hst'.headSeq.trans (h.headSeq.trans hst.headSeq.symm), ?_, ?_, ?_, hevict, hexpiry, ?_, ?_⟩
  · rw [hst'.reservedHead, hst'.headSeq]
    exact h.reserved
  · intro hw
    exact hst.headSeq.trans (h.seen hw)
  · intro t ht
    rw [hst.config]
    unfold sweepTtl at ht
    simp only at ht
    split at ht
    · rename_i hpos
      cases ht
      exact ⟨hpos.1, hpos.2, rfl⟩
    · rename_i hno
      exact absurd ⟨(h.ttl t ht).1, (httl t ht).1⟩ hno
  · intro q r hq
    rcases h.live q r (hold q r hq) with hlive | hswept
    · have hlt := hset.top_lt_of_live hq
      by_cases hexp : q ≤ ({ R with config := c }.enforceRetention clock).floors.expiryFloor
      · exact .inr (hexpiry q r hq hexp)
      · -- above both floors of the replayed topic the slot stays
        left
        have htop : ({ R with config := c }.enforceRetention clock).floors.top < q := by
          rw [hplain.top_eq] at hlt
          rw [hplain'.top_eq]
          omega
        have hbase : ({ R with config := c } : TopicState).seqBase ≤ q := by
          have hseq := h.plain'.seqBase
          have hb := h.plain'.base
          have hq' := base_le_of_get (live_eq_some.mp hlive).1
          change R.seqBase ≤ q
          omega
        rw [live_enforceRetention_of_top_lt hbase htop]
        exact hlive
    · exact .inr (h.swept_setConfig httl hswept)
  · intro htop hw
    obtain ⟨hw', hc⟩ := sweepTtl_eq_none hw
    exact h.setConfig_same (Nat.le_zero.mp (htop ▸ hle.top)) hw' hc now

end KeptLive

/-! ## The run -/

namespace TopicRun

variable {clock : Int} {S : Serde Blob}

theorem kept_retainFrames (S : Serde Blob) {w : Bool × Option Nat} {b R : TopicState} {now : Int}
    (hfs : b.config.durabilityClass = .fsync) (h : KeptLive clock w (b.enforceRetention now) R) :
    KeptLive clock w (b.enforceRetention now)
      ((Registry.retainFrames b now).foldl (TopicState.replayOwn S clock) R) := by
  by_cases hidle : b.retentionIdle = true
  · rw [retainFrames_of_idle hidle]
    exact h
  · have hidle := Bool.eq_false_iff.mpr hidle
    have hfloors := enforceRetention_floors hidle now
    rw [retainFrames_eq (persistent_of_fsync hfs) hidle]
    split
    · exact h.raise (by rw [hfloors]) (by rw [hfloors])
    · exact h

theorem length_appendFrames (b : TopicState) (now : Int) (stored : List StoredRecord) :
    (WritePath.appendFrames S b.topicId now (b.stageAppend stored).2 stored).length =
      stored.length := by
  unfold WritePath.appendFrames StagedAppend.seqs stageAppend
  rw [length_zipWith, length_range', Nat.min_self]

theorem mirrors_kept (hS : S.RoundTrips) (clock : Int) :
    Mirrors S clock (TightensTtl S) fun log L R => KeptLive clock (sweeps S log) L R where
  retain := by
    intro log L R now hfs h
    rw [sweeps_append_silent S log (sweepFrame_retainFrames S L now)]
    exact kept_retainFrames S hfs (h.retain now)
  append := by
    intro log L R records now h0 h1 hfs h
    have hp : R.config.usesPersistentRecordStore = true := by
      rw [h.config]
      exact persistent_of_fsync hfs
    simp only
    rw [foldl_replayOwn_batch hS clock records h0 h1 L.topicId hp h.plain.tail h.plain'.tail h.headSeq,
      sweeps_appendFrames]
    refine h.append ?_ ?_ ?_
    · intro r hr
      obtain ⟨r', -, rfl⟩ := mem_map.mp hr
      rfl
    · intro hseen
      obtain ⟨hw, hempty⟩ := Bool.or_eq_false_iff.mp hseen
      refine ⟨hw, ?_⟩
      have hlen := length_appendFrames (S := S) L now (records.map fun r => r.stored S now)
      have hnil := isEmpty_iff.mp (by simpa using hempty)
      rw [hnil] at hlen
      exact length_eq_zero_iff.mp hlen.symm
    · intro hw
      rw [hw]
      rfl
  config := by
    intro log L R c ts now hfs hC h
    have hsweeps : sweeps S (log ++ [.topicConfig L.topicId ⟨L.name, S.configToVec c⟩ false ts] ++
        Registry.retainFrames { L with config := c } now) = sweepTtl (sweeps S log) c.ttlMs := by
      rw [sweeps_append_silent S _ (sweepFrame_retainFrames S _ now), sweeps_append]
      simp only [foldl_cons, foldl_nil, sweepFrame, hS.config, getD_some]
      rfl
    simp only
    rw [hsweeps]
    exact kept_retainFrames S (b := { L with config := c }) hfs (h.setConfig hC.1 hC.2 now)
  mark := by
    intro log L R ts h
    rw [sweeps_append_silent S log fun f hf p => by rw [mem_singleton.mp hf]; rfl]
    exact h

/-- What is live, and not expired under the TTL in force at the recovery clock, is live after
the recovery. -/
def SurvivesReplay (S : Serde Blob) (spec : TopicSpec) (clock : Int) (s : TopicRun Blob) : Prop :=
  ∃ b, spec.recover S clock s.log = some b ∧
    ∀ q r, s.topic.index.live q = some r →
      ttlExpired s.topic.config.ttlMs clock r.ts = false → b.index.live q = some r

/-- A TTL set on existing records and tightened later, with a record cap besides. -/
def tightenedTtl : List TopicAction :=
  [.write [blank, blank] 0, .putTopic (limited 2000 0 0) 0, .write [blank] 500,
    .putTopic (limited 1000 3 0) 600]

/-- A TTL set on existing records and removed before any of them expired. -/
def removedTtl : List TopicAction :=
  [.write [blank, blank] 0, .putTopic (limited 1000 0 0) 0, .putTopic (limited 0 0 0) 0]

/-- Three writes under a byte cap that holds two of them, and the same config again. -/
def repeatedCap : List TopicAction :=
  [.write [blank] 0, .write [blank] 0, .write [blank] 0, .putTopic (limited 0 0 2) 0]

theorem SurvivesReplay.isSome {spec : TopicSpec} {s : TopicRun Blob}
    (h : SurvivesReplay S spec clock s) {q : Nat} (hq : ∃ r, s.topic.index.live q = some r ∧
      ttlExpired s.topic.config.ttlMs clock r.ts = false) :
    ((spec.recover S clock s.log).bind fun b => b.index.live q).isSome = true := by
  obtain ⟨b, hb, hlive⟩ := h
  obtain ⟨r, hr, hexp⟩ := hq
  rw [hb, bind_some, hlive q r hr hexp]
  rfl

end TopicRun

end Topics
