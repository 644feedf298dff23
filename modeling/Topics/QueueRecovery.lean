import Topics.QueueClaim
import Topics.Replay
import Topics.SnapshotTopic

/-!
# The queue after a recovery

A recovered queue starts from an empty projection, whether the topic comes from its create
frame or from a snapshot, and folds the surviving `Lease` frames into it.  Each of them is
best effort, so any subset may be missing.
-/

namespace Topics

open QueueProjection List TopicState WalRecord Std.TreeMap

variable {Blob : Type} (S : Serde Blob)

/-! ## Folding the frames -/

/-- The queue part of `replay_frame`. -/
def QueueProjection.applyFrame (q : QueueProjection) : WalRecord Blob → QueueProjection
  | .lease _ seq event node leaseId deadline deliveries _ =>
    q.applyLeaseEvent event seq node leaseId (asI64 deadline) deliveries
  | _ => q

/-- The surviving events of job `s`, with the lease they name. -/
def WalRecord.leaseOf (s : Nat) : WalRecord Blob → Option (LeaseEvent × Nat)
  | .lease _ seq event _ leaseId _ _ _ => if seq = s then some (event, leaseId) else none
  | _ => none

/-- What the log says about job `s`, in log order. -/
def trail (frames : List (WalRecord Blob)) (s : Nat) : List (LeaseEvent × Nat) :=
  frames.filterMap (WalRecord.leaseOf s)

def WalRecord.claims : WalRecord Blob → Option Nat
  | .lease _ seq .claimed _ _ _ _ _ => some seq
  | _ => none

namespace TopicState

theorem replay_queue {b : TopicState} (hp : b.config.usesPersistentRecordStore = true)
    (f : WalRecord Blob) : (b.replay S f).queue = b.queue.map (·.applyFrame f) := by
  have hid : b.queue = b.queue.map fun q => q := Option.map_id'.symm
  cases f with
  | append id seq ts node tag data =>
    rw [replay_append hp]
    split
    · rw [append_singleton]
      exact hid
    · exact hid
  | delete id beforeSeq match_ seqs boundHead ts =>
    rw [replay_delete hp]
    split
    · exact (steady_applyDelete b _ _ _ _).queue.trans hid
    · exact (steady_deleteSeqs b seqs).queue.trans hid
  | lease => rw [replay_lease hp]; rfl
  | headWatermark => rw [replay_headWatermark hp]; exact hid
  | evictWatermark | topicConfig | routerCreate | routerDelete | checkpointMark => exact hid

theorem replayAll_queue {b : TopicState} (hp : b.config.usesPersistentRecordStore = true)
    (frames : List (WalRecord Blob)) :
    (b.replayAll S frames).queue =
      b.queue.map fun q => frames.foldl QueueProjection.applyFrame q := by
  induction frames generalizing b with
  | nil => exact Option.map_id'.symm
  | cons f frames ih =>
    have hp' : (b.replay S f).config.usesPersistentRecordStore = true := by
      rw [replay_config]
      exact hp
    refine (ih hp').trans ?_
    rw [replay_queue S hp, Option.map_map]
    rfl

end TopicState

/-! ## What the log says about one job -/

/-- The claim `id` is, as far as the following events of the job show, released or still open:
it is not acknowledged and not superseded first. -/
def StaysOpen (id : Nat) : List (LeaseEvent × Nat) → Prop
  | [] => True
  | e :: t => e = (.released, id) ∨ e.1 ≠ .claimed ∧ e ≠ (.acked, id) ∧ StaysOpen id t

def Kept : List (LeaseEvent × Nat) → Prop
  | [] => False
  | e :: t => e.1 = .claimed ∧ StaysOpen e.2 t ∨ Kept t

/-- Lease id and freelist membership of a job after one of its events. -/
def follow (v : Option Nat × Bool) (e : LeaseEvent × Nat) : Option Nat × Bool :=
  match e.1 with
  | .claimed => (some e.2, v.2)
  | .released => if v.1 = some e.2 then (none, true) else v
  | .extended => v
  | .acked => if v.1 = some e.2 then (none, v.2) else v

theorem staysOpen_of_other_lease {l : Option Nat} {event : LeaseEvent} {id' : Nat}
    (hl : l ≠ some id') (hev : event = .released ∨ event = .acked)
    {t : List (LeaseEvent × Nat)} :
    (∃ id, l = some id ∧ StaysOpen id ((event, id') :: t)) ↔ ∃ id, l = some id ∧ StaysOpen id t := by
  refine exists_congr fun id => and_congr_right fun hid => ?_
  have hne : id' ≠ id := by
    rintro rfl
    exact hl hid
  rcases hev with rfl | rfl <;> simp [StaysOpen, hne]

theorem foldl_follow_iff (t : List (LeaseEvent × Nat)) (v : Option Nat × Bool) :
    ((t.foldl follow v).1.isSome = true ∨ (t.foldl follow v).2 = true) ↔
      v.2 = true ∨ (∃ id, v.1 = some id ∧ StaysOpen id t) ∨ Kept t := by
  induction t generalizing v with
  | nil =>
    obtain ⟨l, r⟩ := v
    cases l <;> simp [StaysOpen, Kept]
  | cons e t ih =>
    obtain ⟨l, r⟩ := v
    obtain ⟨event, id'⟩ := e
    rw [foldl_cons, ih]
    cases event with
    | claimed =>
      -- a newer claim ends whatever lease there was
      simp [follow, StaysOpen, Kept]
    | released =>
      by_cases hl : l = some id'
      · simp [follow, StaysOpen, Kept, hl]
      · simp only [follow, hl, if_false, Kept, reduceCtorEq, false_and, false_or,
          staysOpen_of_other_lease hl (Or.inl rfl)]
    | extended => simp [follow, StaysOpen, Kept]
    | acked =>
      by_cases hl : l = some id'
      · simp [follow, StaysOpen, Kept, hl]
      · simp only [follow, hl, if_false, Kept, reduceCtorEq, false_and, false_or,
          staysOpen_of_other_lease hl (Or.inr rfl)]

def QueueProjection.view (q : QueueProjection) (s : Nat) : Option Nat × Bool :=
  (q.leases[s]?.map Lease.leaseId, decide (s ∈ q.reclaim))

namespace QueueProjection

variable {q : QueueProjection} {x s : Nat} {now : Int}

theorem mem_pushReclaim :
    s ∈ (q.pushReclaim x).reclaim ↔ s = x ∨ s ∈ q.reclaim := by
  unfold pushReclaim
  split
  · rename_i hx
    refine ⟨Or.inr, fun h => ?_⟩
    rcases h with rfl | h
    · exact hx
    · exact h
  · exact mem_orderedInsert _

@[simp] theorem pushReclaim_leases (q : QueueProjection) (x : Nat) :
    (q.pushReclaim x).leases = q.leases := by
  unfold pushReclaim
  split <;> rfl

@[simp] theorem pushReclaim_delayed (q : QueueProjection) (x : Nat) :
    (q.pushReclaim x).delayed = q.delayed := by
  unfold pushReclaim
  split <;> rfl

@[simp] theorem pushReclaim_claimCursor (q : QueueProjection) (x : Nat) :
    (q.pushReclaim x).claimCursor = q.claimCursor := by
  unfold pushReclaim
  split <;> rfl

/-- What a replayed event does once the allocator is ahead of its lease id. -/
inductive LeaseStep (q : QueueProjection) (seq : Nat) (node : String) (leaseId : Nat)
    (deadlineMs : Int) (deliveries : Nat) : LeaseEvent → QueueProjection → Prop where
  | claimed : LeaseStep q seq node leaseId deadlineMs deliveries .claimed
      { q with
        deliveries := q.deliveries.insert seq deliveries
        leases := q.leases.insert seq ⟨node, leaseId, deadlineMs, none⟩
        claimCursor := if seq ≥ q.claimCursor then seq + 1 else q.claimCursor }
  | released (h : (q.view seq).1 = some leaseId) :
      LeaseStep q seq node leaseId deadlineMs deliveries .released (q.dropLease seq)
  | extended {l : Lease} (h : q.leases[seq]? = some l) (hid : l.leaseId = leaseId) :
      LeaseStep q seq node leaseId deadlineMs deliveries .extended
        { q with leases := q.leases.insert seq { l with deadlineMs := deadlineMs } }
  | acked (h : (q.view seq).1 = some leaseId) :
      LeaseStep q seq node leaseId deadlineMs deliveries .acked
        { q with leases := q.leases.erase seq, deliveries := q.deliveries.erase seq }
  /-- The event names another lease. -/
  | stale {event : LeaseEvent} (h : event ≠ .claimed) (hid : (q.view seq).1 ≠ some leaseId) :
      LeaseStep q seq node leaseId deadlineMs deliveries event q

theorem leaseStep_applyLeaseEvent (q : QueueProjection) (event : LeaseEvent) (seq : Nat)
    (node : String) (leaseId : Nat) (deadlineMs : Int) (deliveries : Nat) :
    ∃ q', q.applyLeaseEvent event seq node leaseId deadlineMs deliveries = q' ∧
      LeaseStep { q with nextLeaseId := max q.nextLeaseId (leaseId + 1) } seq node leaseId deadlineMs
        deliveries event q' := by
  have hbump : (if leaseId ≥ q.nextLeaseId then { q with nextLeaseId := leaseId + 1 } else q) =
      { q with nextLeaseId := max q.nextLeaseId (leaseId + 1) } := by
    split
    · rw [max_eq_right (by omega)]
    · rw [max_eq_left (by omega)]
  have hmatch : ∀ q : QueueProjection,
      q.currentLeaseMatches seq leaseId = true ↔ (q.view seq).1 = some leaseId := by
    intro q
    unfold currentLeaseMatches view
    cases q.leases[seq]? <;> simp
  refine ⟨_, rfl, ?_⟩
  unfold applyLeaseEvent
  rw [hbump]
  generalize ({ q with nextLeaseId := max q.nextLeaseId (leaseId + 1) } : QueueProjection) = q
  cases event with
  | claimed => exact .claimed
  | released | acked =>
    simp only
    split
    · rename_i h
      first | exact .released ((hmatch q).mp h) | exact .acked ((hmatch q).mp h)
    · rename_i h
      exact .stale (by decide) (mt (hmatch q).mpr h)
  | extended =>
    simp only
    split
    · rename_i l hl
      split
      · rename_i hid
        exact .extended hl hid
      · rename_i hid
        exact .stale (by decide) (by simp [view, hl, hid])
    · rename_i hl
      exact .stale (by decide) (by simp [view, hl])

@[simp] theorem view_dropLease_self (q : QueueProjection) (s : Nat) :
    (q.dropLease s).view s = (none, true) := by
  simp [view, dropLease, mem_pushReclaim]

theorem view_dropLease_of_ne (q : QueueProjection) (h : x ≠ s) :
    (q.dropLease x).view s = q.view s := by
  simp [view, dropLease, mem_pushReclaim, getElem?_erase, h, h.symm]

theorem view_applyLeaseEvent (q : QueueProjection) (event : LeaseEvent) (seq : Nat)
    (node : String) (leaseId : Nat) (deadline : Int) (deliveries s : Nat) :
    (q.applyLeaseEvent event seq node leaseId deadline deliveries).view s =
      if seq = s then follow (q.view s) (event, leaseId) else q.view s := by
  obtain ⟨q', hq', hstep⟩ := q.leaseStep_applyLeaseEvent event seq node leaseId deadline deliveries
  rw [hq']
  by_cases hs : seq = s
  · subst hs
    rw [if_pos rfl]
    cases hstep with
    | claimed => simp [view, follow]
    | released h =>
      rw [view_dropLease_self]
      exact (if_pos h).symm
    | extended h hid => simp [view, follow, show q.leases[seq]? = _ from h]
    | acked h =>
      refine Eq.trans ?_ (if_pos h).symm
      simp [view]
    | stale h hid =>
      cases event with
      | claimed => exact absurd rfl h
      | extended => rfl
      | released | acked => exact (if_neg hid).symm
  · rw [if_neg hs]
    cases hstep with
    | claimed | extended => simp [view, Std.TreeMap.getElem?_insert, hs]
    | released => exact view_dropLease_of_ne _ hs
    | acked => simp [view, getElem?_erase, hs]
    | stale => rfl

/-- **Lease and freelist of a job are a function of its own trail.** -/
theorem view_foldl_applyFrame (q : QueueProjection) (frames : List (WalRecord Blob)) (s : Nat) :
    (frames.foldl applyFrame q).view s = (trail frames s).foldl follow (q.view s) := by
  induction frames generalizing q with
  | nil => rfl
  | cons f frames ih =>
    rw [foldl_cons, ih]
    cases f with
    | lease topicId seq event node leaseId deadline deliveries ts =>
      have hview : (q.applyFrame (.lease topicId seq event node leaseId deadline deliveries ts :
          WalRecord Blob)).view s = _ :=
        view_applyLeaseEvent q event seq node leaseId (asI64 deadline) deliveries s
      rw [hview]
      by_cases hs : seq = s
      all_goals simp [trail, leaseOf, hs]
    | _ => rfl

/-! ### Cursor and delayed set -/

theorem applyLeaseEvent_delayed (q : QueueProjection) (event : LeaseEvent) (seq : Nat)
    (node : String) (leaseId : Nat) (deadline : Int) (deliveries : Nat) :
    (q.applyLeaseEvent event seq node leaseId deadline deliveries).delayed = q.delayed := by
  obtain ⟨q', hq', hstep⟩ := q.leaseStep_applyLeaseEvent event seq node leaseId deadline deliveries
  rw [hq']
  cases hstep <;> simp [dropLease]

theorem claimCursor_applyFrame_le (q : QueueProjection) (f : WalRecord Blob) (s : Nat) :
    (q.applyFrame f).claimCursor ≤ s ↔ q.claimCursor ≤ s ∧ ∀ x, f.claims = some x → x < s := by
  cases f with
  | lease topicId seq event node leaseId deadline deliveries ts =>
    obtain ⟨q', hq', hstep⟩ :=
      q.leaseStep_applyLeaseEvent event seq node leaseId (asI64 deadline) deliveries
    rw [applyFrame, hq']
    cases hstep with
    | claimed =>
      simp only [claims, Option.some.injEq, forall_eq']
      split <;> omega
    | released | extended | acked => simp [claims, dropLease]
    | stale h =>
      cases event with
      | claimed => exact absurd rfl h
      | _ => simp [claims]
  | _ => simp [applyFrame, claims]

theorem claimCursor_foldl_applyFrame_le (q : QueueProjection) (frames : List (WalRecord Blob))
    (s : Nat) : (frames.foldl applyFrame q).claimCursor ≤ s ↔
      q.claimCursor ≤ s ∧ ∀ f ∈ frames, ∀ x, f.claims = some x → x < s := by
  induction frames generalizing q with
  | nil => simp
  | cons f frames ih =>
    rw [foldl_cons, ih, claimCursor_applyFrame_le, forall_mem_cons, and_assoc]

theorem delayed_foldl_applyFrame (q : QueueProjection) (frames : List (WalRecord Blob)) :
    (frames.foldl applyFrame q).delayed = q.delayed := by
  induction frames generalizing q with
  | nil => rfl
  | cons f frames ih =>
    rw [foldl_cons, ih]
    cases f with
    | lease => exact applyLeaseEvent_delayed q _ _ _ _ _ _
    | _ => rfl

/-! ## The sweep after all leases expired -/

theorem foldl_dropLease (l : List Nat) (q : QueueProjection) (s : Nat) :
    (s ∈ (l.foldl dropLease q).reclaim ↔ s ∈ l ∨ s ∈ q.reclaim) ∧
      ((l.foldl dropLease q).leases.contains s = true ↔ s ∉ l ∧ q.leases.contains s = true) ∧
      (l.foldl dropLease q).claimCursor = q.claimCursor := by
  induction l generalizing q with
  | nil => simp
  | cons x l ih =>
    obtain ⟨hrec, hlease, hcur⟩ := ih (q.dropLease x)
    rw [foldl_cons]
    refine ⟨?_, ?_, hcur.trans (pushReclaim_claimCursor _ x)⟩
    · rw [hrec, dropLease, mem_pushReclaim, mem_cons]
      tauto
    · rw [hlease, dropLease, pushReclaim_leases, mem_cons, not_or]
      simp only [contains_erase, Bool.and_eq_true]
      have hcmp : (compare x s != .eq) = true ↔ s ≠ x := by
        rw [bne_iff_ne, ne_eq, Nat.compare_eq_eq, eq_comm]
      rw [hcmp]
      tauto

/-- Every lease has run out at `now`. -/
def AllExpired (q : QueueProjection) (now : Int) : Prop :=
  ∀ (x : Nat) (l : Lease), q.leases[x]? = some l → l.deadlineMs < now

theorem mem_expired (h : q.AllExpired now) :
    s ∈ q.expired now ↔ q.leases.contains s = true := by
  unfold expired
  simp only [mem_map, mem_filter, Prod.exists, exists_and_right, exists_eq_right,
    decide_eq_true_eq]
  rw [contains_eq_isSome_getElem?, Option.isSome_iff_exists]
  constructor
  · rintro ⟨l, hl, _⟩
    exact ⟨l, mem_toList_iff_getElem?_eq_some.mp hl⟩
  · rintro ⟨l, hl⟩
    exact ⟨l, mem_toList_iff_getElem?_eq_some.mpr hl, h s l hl⟩

theorem claimable_sweepExpired {ix : TopicIndex} {head s : Nat} (h : q.AllExpired now)
    (hdelayed : q.delayed = []) (hlive : (ix.live s).isSome = true) (hs : s ≤ head) :
    (q.sweepExpired now).Claimable ix head s ↔
      q.leases.contains s = true ∨ s ∈ q.reclaim ∨ q.claimCursor ≤ s := by
  have hsweep : q.sweepExpired now = (q.expired now).foldl dropLease q := by
    unfold sweepExpired
    rw [hdelayed]
    simp only [sweepDelayed]
    rw [← hdelayed]
  obtain ⟨hrec, hlease, hcur⟩ := foldl_dropLease (q.expired now) q s
  rw [hsweep]
  unfold Claimable Idle
  rw [hrec, hcur, mem_expired h]
  have hfree : ((q.expired now).foldl dropLease q).leases.contains s = false := by
    rw [Bool.eq_false_iff, ne_eq, hlease, mem_expired h]
    tauto
  simp only [hlive, hfree, hs]
  tauto

end QueueProjection

/-! ## Recovery -/

theorem queue_new (name : String) (topicId : Nat) {config : TopicConfig}
    (h : config.isQueue = true) (seqBase : Nat) :
    (TopicState.new name topicId config seqBase).queue = some (.new seqBase) :=
  if_pos h

theorem queue_restoreTopic (sb : SnapshotTopic Blob) {config : TopicConfig}
    (h : config.isQueue = true) :
    (restoreTopic S sb config).queue = some (.new seqBaseDefault) :=
  queue_new sb.name sb.topicId h seqBaseDefault

theorem TopicState.applyHeadWatermark_queue (b : TopicState) :
    b.applyHeadWatermark.queue = b.queue := by
  rw [applyHeadWatermark_eq]
  split <;> rfl

/-- The topic a recovery ends with when it starts from `b` and finds `frames`. -/
def TopicState.recoverFrom (b : TopicState) (frames : List (WalRecord Blob)) : TopicState :=
  (b.replayAll S frames).applyHeadWatermark

/-- A job that the surviving frames do not strand: one of its claims stays open in them, or
they claim nothing at or above it. -/
def Recoverable (frames : List (WalRecord Blob)) (seqBase s : Nat) : Prop :=
  Kept (trail frames s) ∨ seqBase ≤ s ∧ ∀ f ∈ frames, ∀ x, f.claims = some x → x < s

/-- The claim of the documentation, for one job: held, waiting, or ahead of the cursor. -/
def QueueProjection.Reaches (q : QueueProjection) (s : Nat) : Prop :=
  q.leases.contains s = true ∨ s ∈ q.reclaim ∨ (∃ readyAt, (readyAt, s) ∈ q.delayed) ∨
    q.claimCursor ≤ s

theorem reaches_foldl_applyFrame_iff (frames : List (WalRecord Blob)) (seqBase s : Nat) :
    (frames.foldl QueueProjection.applyFrame (.new seqBase)).Reaches s ↔
      Recoverable frames seqBase s := by
  have hview := view_foldl_applyFrame (.new seqBase) frames s
  have hfollow := foldl_follow_iff (trail frames s) ((QueueProjection.new seqBase).view s)
  rw [← hview] at hfollow
  have hempty : (QueueProjection.new seqBase).view s = (none, false) := by
    simp [QueueProjection.view, QueueProjection.new]
  rw [hempty] at hfollow
  simp only [QueueProjection.view, Option.isSome_map, decide_eq_true_eq, Bool.false_eq_true,
    reduceCtorEq, false_and, exists_false, false_or] at hfollow
  unfold QueueProjection.Reaches Recoverable
  rw [delayed_foldl_applyFrame, claimCursor_foldl_applyFrame_le,
    contains_eq_isSome_getElem?, ← hfollow, or_assoc]
  simp [QueueProjection.new]

/-- **Which jobs a recovery strands.**  For a queue topic recovered from its create frame or
from a snapshot and any frames behind it, with any `Lease` frames missing: a live job is held,
waiting or ahead of the cursor iff the surviving frames leave one of its claims open or claim
nothing at or above it, and once the recovered leases have expired an unbounded claim hands
out exactly these jobs. -/
theorem recovered_jobs_claimable_iff {b : TopicState}
    (hp : b.config.usesPersistentRecordStore = true) {seqBase : Nat}
    (hq : b.queue = some (.new seqBase)) (frames : List (WalRecord Blob)) :
    ∃ q, (b.recoverFrom S frames).queue = some q ∧
      ∀ s, ((b.recoverFrom S frames).index.live s).isSome = true →
        s ≤ (b.recoverFrom S frames).headSeq →
        (q.Reaches s ↔ Recoverable frames seqBase s) ∧
        ∀ now claimers terms, q.AllExpired now →
          (q.sweepExpired now).backlog (b.recoverFrom S frames).headSeq <
            (claimers.map fun c : Claimer => max 1 (min c.max maxClaim)).sum →
          (s ∈ (runClaimCohort q (b.recoverFrom S frames).index
              (b.recoverFrom S frames).headSeq claimers terms now).handed ↔
            Recoverable frames seqBase s) := by
  refine ⟨frames.foldl applyFrame (.new seqBase), ?_, ?_⟩
  · rw [recoverFrom, applyHeadWatermark_queue,
      replayAll_queue S hp, hq]
    rfl
  · intro s hlive hs
    have hreach := reaches_foldl_applyFrame_iff frames seqBase s
    refine ⟨hreach, fun now claimers terms hexp hdemand => ?_⟩
    have hdelayed : (frames.foldl applyFrame (.new seqBase)).delayed = [] :=
      delayed_foldl_applyFrame _ _
    rw [handed_runClaimCohort_iff hdemand,
      claimable_sweepExpired hexp hdelayed hlive hs, ← hreach]
    simp [QueueProjection.Reaches, hdelayed]

/-! ## A stranded job -/

/-- A `disk` queue with durable leases. -/
def jobQueue : TopicState :=
  TopicState.new "jobs" 1
    { topicType := .queue, durability := some .disk, leasesDurable := true } seqBaseDefault

/-- The `Append` frames of two jobs. -/
def jobFrames : List (WalRecord (Value ⊕ TopicConfig)) :=
  [.append 1 1 0 none none (.inl .null), .append 1 2 0 none none (.inl .null)]

/-- The `Claimed` frames of a pass of one claimer, as `log_lease_event` writes them. -/
def claimedFrames (pass : ClaimPass) (node : String) (deadline now : Int) :
    List (WalRecord (Value ⊕ TopicConfig)) :=
  pass.leased.map fun (_, seq, leaseId, deliveries) =>
    .lease 1 seq .claimed node leaseId deadline.toNat deliveries now.toNat

/-- The pass that claims both jobs at time 0 for 30 s. -/
def claimBoth : ClaimPass :=
  let live := jobQueue.recoverFrom Serde.identity jobFrames
  runClaimCohort (live.queue.getD (.new 1)) live.index live.headSeq [⟨"worker", 2, none⟩]
    ⟨0, false, 30000⟩ 0

/-- With all frames in place both jobs are handed out again after the crash. -/
theorem recovered_jobs_claimable_both :
    ∃ q, (jobQueue.recoverFrom Serde.identity
        (jobFrames ++ claimedFrames claimBoth "worker" 30000 0)).queue = some q ∧
      ∀ s, ((jobQueue.recoverFrom Serde.identity
          (jobFrames ++ claimedFrames claimBoth "worker" 30000 0)).index.live s).isSome = true →
        s ≤ (jobQueue.recoverFrom Serde.identity
          (jobFrames ++ claimedFrames claimBoth "worker" 30000 0)).headSeq →
        (q.Reaches s ↔
          Recoverable (jobFrames ++ claimedFrames claimBoth "worker" 30000 0) 1 s) := by
  obtain ⟨q, hq, h⟩ := recovered_jobs_claimable_iff Serde.identity (b := jobQueue) rfl rfl
    (jobFrames ++ claimedFrames claimBoth "worker" 30000 0)
  exact ⟨q, hq, fun s hlive hs => (h s hlive hs).1⟩

/-- **A missing frame strands a job.**  Both jobs were claimed.  The `Claimed` frame of job 2
survives and moves the cursor to 3, the one of job 1 is lost.  After the recovery job 1 is
live, but once the lease of job 2 has expired an unbounded claim hands out job 2 only. -/
theorem job_stranded_by_missing_claim :
    claimBoth.leased = [(0, 1, 1, 1), (0, 2, 2, 1)] ∧
      let topic := jobQueue.recoverFrom Serde.identity
        (jobFrames ++ (claimedFrames claimBoth "worker" 30000 0).drop 1)
      (topic.index.live 1).isSome = true ∧ (topic.index.live 2).isSome = true ∧
        topic.queue.map (fun q => (q.leases.keys, q.reclaim, q.claimCursor)) = some ([2], [], 3) ∧
        topic.queue.map (fun q => (runClaimCohort q topic.index topic.headSeq
          [⟨"worker", 1000, none⟩] ⟨0, false, 60000⟩ 30001).handed) = some [2] := by
  decide

end Topics
