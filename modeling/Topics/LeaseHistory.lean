import Topics.QueueCalls

/-!
# Leases across restarts

The calls on a queue topic one after the other, with the frames they log, snapshots and crashes.
A recovery starts from the create frame or the last snapshot, with an empty projection, and folds
the `Lease` frames behind it.  Lease frames are written only if `leases_durable` is on, and a
snapshot holds neither the leases nor the allocator of their ids.
-/

namespace Topics

open Lib TopicState QueueProjection Option List TopicRun

variable {Blob : Type}

/-! ## The calls of a queue with their frames -/

/-- The queue with its log, what a recovery would start from, and the deliveries made. -/
structure LeaseRun (Blob : Type) where
  run : TopicRun Blob
  /-- The topic as its create frame or the last snapshot restores it; the log lies behind it. -/
  base : TopicState
  /-- History: seq and lease id of every delivery. -/
  issued : List (Nat × Nat)

/-- The calls.  A crash keeps the first `kept` frames. -/
inductive LeaseCall where
  | write (records : List RecordIn) (now : Int)
  | claim (claimers : List Claimer) (leaseMs : Option Nat) (now : Int)
  | ack (node : String) (seqs : List Nat) (leaseIds : List (Option Nat)) (now : Int)
  | nack (node : String) (seqs : List Nat) (leaseIds : List (Option Nat)) (delayMs : Nat) (now : Int)
  | extend (node : String) (seqs : List Nat) (leaseIds : List (Option Nat)) (leaseMs : Nat)
      (now : Int)
  | release (conn : Nat) (now : Int)
  | snapshot (now : Int)
  | crash (kept : Nat)

/-- One event of the leases log before it is a frame. -/
structure LeaseNote where
  event : LeaseEvent
  seq : Nat
  node : String
  leaseId : Nat
  deadline : Int
  deliveries : Nat

namespace TopicRun

def leasesDurable (r : TopicRun Blob) : Bool :=
  r.topic.config.leasesDurable && r.topic.config.usesPersistentRecordStore

/-- `delete_one_seq`: an `fsync` topic logs the delete first. -/
def deleteOneSeq (r : TopicRun Blob) (now : Int) (seq : Nat) : TopicRun Blob :=
  let f := .delete r.topic.topicId none none [seq] none now.toNat
  let logged := if r.topic.config.durabilityClass = .fsync then r.logDurable [f]
    else { r with log := r.log ++ [f] }
  { logged with topic := r.topic.deleteSeqs [seq] }

def noteFrame (r : TopicRun Blob) (now : Int) (e : LeaseNote) : WalRecord Blob :=
  .lease r.topic.topicId e.seq e.event e.node e.leaseId e.deadline.toNat e.deliveries now.toNat

/-- `log_lease_event` for the events of a call. -/
def logLeases (r : TopicRun Blob) (now : Int) (events : List LeaseNote) : TopicRun Blob :=
  if r.leasesDurable then r.logDurable (events.map (r.noteFrame now)) else r

def setQueue (r : TopicRun Blob) (q : QueueProjection) : TopicRun Blob :=
  { r with topic := { r.topic with queue := some q } }

/-- The instant until which a claim leases its jobs. -/
def claimDeadline (r : TopicRun Blob) (leaseMs : Option Nat) (now : Int) : Int :=
  min (2 ^ 63 - 1)
    (now + (max minLeaseMs (min (leaseMs.getD r.topic.config.leaseMs) maxLeaseMs) : Nat))

/-- What the pass of a claim reads from the config. -/
def claimTerms (r : TopicRun Blob) (deadline : Int) : ClaimTerms :=
  ⟨r.topic.config.maxDeliveries, r.topic.config.deadLetter.isSome, deadline⟩

end TopicRun

namespace ClaimPass

/-- The `claimed` events of a pass. -/
def notes (pass : ClaimPass) (claimers : List Claimer) (deadline : Int) : List LeaseNote :=
  pass.leased.map fun (rr, seq, leaseId, deliveries) =>
    ⟨.claimed, seq, (claimers[rr]?.map Claimer.node).getD "", leaseId, deadline, deliveries⟩

def deliveries (pass : ClaimPass) : List (Nat × Nat) := pass.leased.map fun e => (e.2.1, e.2.2.1)

end ClaimPass

namespace LeaseRun

def start (spec : TopicSpec) : LeaseRun Blob := ⟨.init spec, spec.fresh, []⟩

/-- The jobs that the node holds, with the event that is logged for each of them. -/
def noted (event : LeaseEvent) (node : String) (deadline : Int) (held : List (Nat × Nat)) :
    List LeaseNote :=
  held.map fun (seq, leaseId) => ⟨event, seq, node, leaseId, deadline, 0⟩

section Step

variable (S : Serde Blob) (resolve : Nat → Value × Option Value)

def step (s : LeaseRun Blob) : LeaseCall → Option (LeaseRun Blob)
  | .write records now => some { s with run := s.run.write S records now }
  | .claim claimers leaseMs now =>
    let r := s.run.retain now
    r.topic.queue.map fun q =>
      let deadline := r.claimDeadline leaseMs now
      let pass := runClaimCohort q r.topic.index r.topic.headSeq claimers (r.claimTerms deadline) now
      -- the dead letters are copied elsewhere and deleted here, before the events are logged
      let r := pass.toDeadLetter.foldl (·.deleteOneSeq now) (r.setQueue pass.q)
      { s with
        run := r.logLeases now (pass.notes claimers deadline)
        issued := s.issued ++ pass.deliveries }
  | .ack node seqs leaseIds now =>
    if QueueProjection.fencedRefuses node seqs leaseIds then none
    else s.run.topic.queue.map fun q =>
      let (q, acked) := q.ackLeases node seqs leaseIds now
      -- each job is deleted, then its event is logged
      let r := acked.foldl
        (fun r (seq, leaseId) =>
          (r.deleteOneSeq now seq).logLeases now (noted .acked node 0 [(seq, leaseId)]))
        (s.run.setQueue q)
      { s with run := r }
  | .nack node seqs leaseIds delayMs now =>
    if QueueProjection.fencedRefuses node seqs leaseIds then none
    else s.run.topic.queue.map fun q =>
      let (q, nacked) := q.nackLeases node seqs leaseIds delayMs now
      { s with run := (s.run.setQueue q).logLeases now (noted .released node 0 nacked) }
  | .extend node seqs leaseIds leaseMs now =>
    if QueueProjection.fencedRefuses node seqs leaseIds then none
    else s.run.topic.queue.map fun q =>
      let (q, extended) := q.extendLeases node seqs leaseIds leaseMs now
      { s with
        run := (s.run.setQueue q).logLeases now
          (noted .extended node (QueueProjection.extendDeadline leaseMs now) extended) }
  | .release conn now =>
    s.run.topic.queue.map fun q =>
      let (q, released) := q.releaseConn conn
      { s with
        run := (s.run.setQueue q).logLeases now
          (released.map fun (seq, node, leaseId) => ⟨.released, seq, node, leaseId, 0, 0⟩) }
  | .snapshot now =>
    let r := s.run.logDurable [.checkpointMark 0 now.toNat]
    let position := r.log.length
    let r := r.retain now
    let captured := captureTopic S resolve r.topic
    some { s with
      run := { r with log := r.log.drop position, synced := r.synced - position }
      base := restoreTopic S captured (captured.config S) }
  | .crash kept =>
    if s.run.synced ≤ kept then
      let log := s.run.log.take kept
      some { s with
        run := { s.run with
          topic := s.base.recoverFrom S log
          log := log
          synced := log.length } }
    else none

end Step

/-! ## The projection that the log describes -/

def grants (e : Nat × Nat) : WalRecord Blob → Bool
  | .lease _ seq .claimed _ leaseId _ _ _ => decide ((seq, leaseId) = e)
  | _ => false

def folded (log : List (WalRecord Blob)) : QueueProjection :=
  log.foldl QueueProjection.applyFrame (.new seqBaseDefault)

def Silent : WalRecord Blob → Prop
  | .lease .. => False
  | _ => True

variable {f : WalRecord Blob} {log frames : List (WalRecord Blob)} {r : TopicRun Blob}
  {q : QueueProjection} {l' : Lease} {x : Nat} {b : TopicState}

theorem applyFrame_of_silent (h : Silent f) (q : QueueProjection) :
    q.applyFrame f = q := by
  cases f with
  | lease => exact h.elim
  | _ => rfl

theorem folded_append_silent (h : ∀ f ∈ frames, Silent f) :
    folded (log ++ frames) = folded log := by
  unfold folded
  rw [foldl_append]
  generalize log.foldl applyFrame (.new seqBaseDefault) = q
  induction frames with
  | nil => rfl
  | cons f frames ih =>
    rw [foldl_cons, applyFrame_of_silent (h f mem_cons_self)]
    exact ih fun f' hf' => h f' (mem_cons_of_mem f hf')

/-! ## Calls that do not touch the leases -/

/-- The queue is the same, and the frames say nothing about leases. -/
structure Quietly (r r' : TopicRun Blob) : Prop extends r.Adds Silent r' where
  queue : r'.topic.queue = r.topic.queue
  config : r'.topic.config = r.topic.config

namespace Quietly

variable {r r' r'' : TopicRun Blob}

theorem refl (r : TopicRun Blob) : Quietly r r := ⟨.of_log_eq rfl rfl, rfl, rfl⟩

theorem trans (h : Quietly r r') (h' : Quietly r' r'') : Quietly r r'' :=
  ⟨h.toAdds.trans h'.toAdds, h'.queue.trans h.queue, h'.config.trans h.config⟩

theorem logDurable (r : TopicRun Blob) {frames : List (WalRecord Blob)}
    (hsilent : ∀ f ∈ frames, Silent f) : Quietly r (r.logDurable frames) :=
  ⟨.logDurable hsilent, rfl, rfl⟩

theorem retain (r : TopicRun Blob) (now : Int) : Quietly r (r.retain now) := by
  have hsteady := steady_enforceRetention r.topic now
  exact ⟨.retain r now fun _ _ _ _ _ => trivial, hsteady.queue, hsteady.config⟩

theorem append_queue (b : TopicState) (rs : List StoredRecord) : (b.append rs).queue = b.queue := by
  unfold append publishStagedNoSeal stageAppend
  split <;> rfl

theorem silent_appendFrames (S : Serde Blob) (id : Nat) (now : Int) (g : StagedAppend)
    (records : List StoredRecord) : ∀ f ∈ WritePath.appendFrames S id now g records, Silent f := by
  intro f hf
  obtain ⟨i, hi, rfl⟩ := mem_iff_getElem.mp hf
  simp only [WritePath.appendFrames, getElem_zipWith]
  trivial

theorem appendBatch (S : Serde Blob) (r : TopicRun Blob) (stored : List StoredRecord) (now : Int) :
    Quietly r (r.appendBatch S stored now) := by
  obtain ⟨n, htopic⟩ := r.appendBatch_topic (S := S) stored now
  refine ⟨.appendBatch r stored now (silent_appendFrames _ _ _ _ _) fun _ _ => trivial, ?_, ?_⟩
  · rw [htopic]
    exact append_queue _ _
  · rw [htopic]
    exact append_config _ _

theorem write (S : Serde Blob) (r : TopicRun Blob) (records : List RecordIn) (now : Int) :
    Quietly r (r.write S records now) := by
  unfold TopicRun.write
  simp only
  split
  · exact retain r now
  · exact ((retain r now).trans (appendBatch S _ _ now)).trans (retain _ now)

theorem deleteOneSeq (r : TopicRun Blob) (now : Int) (seq : Nat) :
    Quietly r (r.deleteOneSeq now seq) := by
  have hsteady := steady_deleteSeqs r.topic [seq]
  unfold TopicRun.deleteOneSeq
  simp only
  split
  · exact ⟨(TopicRun.Adds.logDurable (by simp [Silent])).trans (.of_log_eq rfl rfl),
      hsteady.queue, hsteady.config⟩
  · exact ⟨(TopicRun.Adds.logLazy (by simp [Silent])).trans (.of_log_eq rfl rfl),
      hsteady.queue, hsteady.config⟩

theorem deleteAll (r : TopicRun Blob) (now : Int) (seqs : List Nat) :
    Quietly r (seqs.foldl (·.deleteOneSeq now) r) :=
  foldlRecOn (motive := Quietly r) seqs _ (refl r) fun r' h seq _ =>
    h.trans (deleteOneSeq r' now seq)

theorem folded_log (h : Quietly r r') : folded r'.log = folded r.log := by
  obtain ⟨frames, hlog, hsilent⟩ := h.log
  rw [hlog, folded_append_silent hsilent]

end Quietly

/-! ## Calls that do -/

def applyNote (q : QueueProjection) (e : LeaseNote) : QueueProjection :=
  q.applyLeaseEvent e.event e.seq e.node e.leaseId (asI64 e.deadline.toNat) e.deliveries

theorem logLeases_topic (r : TopicRun Blob) (now : Int) (events : List LeaseNote) :
    (r.logLeases now events).topic = r.topic := by
  unfold logLeases
  split <;> rfl

theorem folded_logLeases (h : r.leasesDurable = true) (now : Int) (events : List LeaseNote) :
    folded (r.logLeases now events).log = events.foldl applyNote (folded r.log) := by
  unfold logLeases folded
  rw [if_pos h]
  simp only [logDurable, foldl_append, foldl_map]
  rfl

theorem mem_log_logLeases {now : Int} {events : List LeaseNote}
    (hf : f ∈ (r.logLeases now events).log) :
    f ∈ r.log ∨ r.leasesDurable = true ∧ ∃ e ∈ events, f = r.noteFrame now e := by
  unfold logLeases at hf
  split at hf
  · rename_i hdur
    rcases mem_append.mp hf with hf | hf
    · exact .inl hf
    · obtain ⟨e, he, rfl⟩ := mem_map.mp hf
      exact .inr ⟨hdur, e, he, rfl⟩
  · exact .inl hf

theorem tail_logLeases (h : ∀ f ∈ r.log.drop r.synced, Silent f) (now : Int)
    (events : List LeaseNote) :
    ∀ f ∈ (r.logLeases now events).log.drop (r.logLeases now events).synced, Silent f := by
  unfold logLeases logDurable
  split
  · simp only
    split
    · rename_i hnil
      rw [isEmpty_iff.mp hnil, append_nil]
      exact h
    · rw [drop_length]
      exact forall_mem_nil _
  · exact h

/-! ## Lease ids -/

/-- The ids of the deliveries so far lie below the allocator, and every lease is one of them. -/
structure Tokens (issued : List (Nat × Nat)) (q : QueueProjection) : Prop where
  below : ∀ e ∈ issued, e.2 < q.nextLeaseId
  held : ∀ (x : Nat) l, q.leases[x]? = some l → (x, l.leaseId) ∈ issued

namespace Tokens

variable {issued : List (Nat × Nat)} {q q' : QueueProjection}

theorem narrow (h : Tokens issued q) (hnext : q'.nextLeaseId = q.nextLeaseId)
    (hleases : ∀ (x : Nat) l', q'.leases[x]? = some l' →
      ∃ l, q.leases[x]? = some l ∧ l'.leaseId = l.leaseId) : Tokens issued q' := by
  refine ⟨fun e he => ?_, fun x l' hl' => ?_⟩
  · rw [hnext]
    exact h.below e he
  · obtain ⟨l, hl, hid⟩ := hleases x l' hl'
    rw [hid]
    exact h.held x l hl

theorem sweepExpired (h : Tokens issued q) (now : Int) : Tokens issued (q.sweepExpired now) :=
  h.narrow (sweepExpired_nextLeaseId q now) fun _ l hl =>
    ⟨l, leases_of_sweepExpired hl, rfl⟩

theorem erased {seq : Nat} (hq : q'.leases = q.leases.erase seq) (x : Nat) (l' : Lease)
    (hl' : q'.leases[x]? = some l') : q.leases[x]? = some l' := by
  rw [hq, Std.TreeMap.getElem?_erase] at hl'
  split at hl'
  · cases hl'
  · exact hl'

section

variable (h : Tokens issued q)

include h

theorem narrow_erased (hnext : q'.nextLeaseId = q.nextLeaseId) {seq : Nat}
    (hq : q'.leases = q.leases.erase seq) : Tokens issued q' :=
  h.narrow hnext fun x l' hl' => ⟨l', erased hq x l' hl', rfl⟩

theorem ackOne (seq : Nat) (l : Lease) : Tokens issued (q.ackOne seq l) :=
  h.narrow_erased rfl rfl

theorem nackOne (delayMs : Nat) (now : Int) (seq : Nat) (l : Lease) :
    Tokens issued (q.nackOne delayMs now seq l) := by
  unfold QueueProjection.nackOne
  simp only
  split
  · exact h.narrow_erased rfl rfl
  · exact h.narrow_erased (by simp) (pushReclaim_leases _ seq)

theorem extendOne (deadline : Int) {seq : Nat} {l : Lease} (hl : q.leases[seq]? = some l) :
    Tokens issued (q.extendOne deadline seq l) := by
  refine h.narrow rfl fun x l' hl' => ?_
  simp only [QueueProjection.extendOne, Std.TreeMap.getElem?_insert] at hl'
  split at hl'
  · rename_i hx
    cases Nat.compare_eq_eq.mp hx
    cases hl'
    exact ⟨l, hl, rfl⟩
  · exact ⟨l', hl', rfl⟩

theorem dropLease (seq : Nat) : Tokens issued (q.dropLease seq) :=
  h.narrow_erased (by simp [QueueProjection.dropLease]) (pushReclaim_leases _ seq)

/-- **A claim pass** gives every delivery an id of its own. -/
theorem claimPass (hnodup : issued.Nodup) (ix : TopicIndex) (head : Nat) (claimers : List Claimer)
    (terms : ClaimTerms) (now : Int) :
    Tokens (issued ++ (runClaimCohort q ix head claimers terms now).deliveries)
        (runClaimCohort q ix head claimers terms now).q ∧
      (issued ++ (runClaimCohort q ix head claimers terms now).deliveries).Nodup := by
  unfold runClaimCohort
  refine ClaimPass.claimLoop_induct
    (P := fun st => Tokens (issued ++ st.deliveries) st.q ∧ (issued ++ st.deliveries).Nodup)
    (fun _ _ h => h) ?_ ?_ ?_ _ ?_
  · rintro st q rr ⟨ht, hn⟩ hnext
    obtain ⟨_, _, rfl⟩ := nextClaimable_eq hnext
    exact ⟨⟨ht.below, ht.held⟩, hn⟩
  · rintro st q rr seq ⟨ht, hn⟩ hnext -
    obtain ⟨_, _, rfl⟩ := nextClaimable_eq hnext
    exact ⟨⟨ht.below, ht.held⟩, hn⟩
  · rintro st q rr seq ⟨ht, hn⟩ hnext -
    obtain ⟨_, _, rfl⟩ := nextClaimable_eq hnext
    have hdeliveries : ∀ q, (st.lease claimers terms q rr seq).deliveries =
        st.deliveries ++ [(seq, q.nextLeaseId)] := fun q => by
      simp [ClaimPass.deliveries, ClaimPass.lease]
    simp only [hdeliveries]
    rw [← append_assoc]
    refine ⟨⟨fun e he => ?_, fun x l hl => ?_⟩, ?_⟩
    · simp only [ClaimPass.lease]
      rcases mem_append.mp he with he | he
      · exact Nat.lt_succ_of_lt (ht.below e he)
      · cases mem_singleton.mp he
        exact Nat.lt_succ_self _
    · simp only [ClaimPass.lease, Std.TreeMap.getElem?_insert] at hl
      split at hl
      · rename_i hx
        cases Nat.compare_eq_eq.mp hx
        cases hl
        exact mem_append_right _ (mem_singleton_self _)
      · exact mem_append_left _ (ht.held x l hl)
    · refine nodup_append.mpr ⟨hn, nodup_singleton _, fun e he e' he' => ?_⟩
      cases mem_singleton.mp he'
      rintro rfl
      exact lt_irrefl _ (ht.below _ he)
  · exact ⟨by simpa [ClaimPass.deliveries] using h.sweepExpired now,
      by simpa [ClaimPass.deliveries] using hnodup⟩

end

end Tokens

/-! ### What recovery finds -/

theorem nextLeaseId_applyLeaseEvent (q : QueueProjection) (event : LeaseEvent) (seq : Nat)
    (node : String) (leaseId : Nat) (deadline : Int) (deliveries : Nat) :
    (q.applyLeaseEvent event seq node leaseId deadline deliveries).nextLeaseId =
      max q.nextLeaseId (leaseId + 1) := by
  obtain ⟨q', hq', hstep⟩ := q.leaseStep_applyLeaseEvent event seq node leaseId deadline deliveries
  rw [hq']
  cases hstep <;> simp [dropLease]

theorem leases_applyLeaseEvent {event : LeaseEvent} {seq : Nat} {node : String} {leaseId : Nat}
    {deadline : Int} {deliveries x : Nat}
    (h : (q.applyLeaseEvent event seq node leaseId deadline deliveries).leases[x]? = some l') :
    (event = .claimed ∧ seq = x ∧ leaseId = l'.leaseId ∧ l'.byWorkConn = none) ∨
      ∃ l, q.leases[x]? = some l ∧ l'.leaseId = l.leaseId ∧ l'.byWorkConn = l.byWorkConn := by
  obtain ⟨q', hq', hstep⟩ := q.leaseStep_applyLeaseEvent event seq node leaseId deadline deliveries
  rw [hq'] at h
  cases hstep with
  | claimed =>
    simp only [Std.TreeMap.getElem?_insert] at h
    split at h
    · rename_i hx
      cases h
      exact .inl ⟨rfl, Nat.compare_eq_eq.mp hx, rfl, rfl⟩
    · exact .inr ⟨l', h, rfl, rfl⟩
  | released => exact .inr ⟨l', Tokens.erased (pushReclaim_leases _ seq) x l' h, rfl, rfl⟩
  | extended hl =>
    simp only [Std.TreeMap.getElem?_insert] at h
    split at h
    · rename_i hx
      cases Nat.compare_eq_eq.mp hx
      cases h
      exact .inr ⟨_, hl, rfl, rfl⟩
    · exact .inr ⟨l', h, rfl, rfl⟩
  | acked => exact .inr ⟨l', Tokens.erased rfl x l' h, rfl, rfl⟩
  | stale => exact .inr ⟨l', h, rfl, rfl⟩

theorem leases_applyFrame (h : (q.applyFrame f).leases[x]? = some l') :
    (grants (x, l'.leaseId) f = true ∧ l'.byWorkConn = none) ∨
      ∃ l, q.leases[x]? = some l ∧ l'.leaseId = l.leaseId ∧ l'.byWorkConn = l.byWorkConn := by
  cases f with
  | lease topicId seq event node leaseId deadline deliveries ts =>
    rcases leases_applyLeaseEvent h with ⟨rfl, rfl, rfl, hconn⟩ | hold
    · exact .inl ⟨by simp [grants], hconn⟩
    · exact .inr hold
  | _ => exact .inr ⟨l', h, rfl, rfl⟩

theorem folded_concat (log : List (WalRecord Blob)) (f : WalRecord Blob) :
    folded (log ++ [f]) = (folded log).applyFrame f := by
  simp [folded]

theorem lt_nextLeaseId_folded {e : Nat × Nat} (hf : f ∈ log) (hg : grants e f = true) :
    e.2 < (folded log).nextLeaseId := by
  have hmono : ∀ (q : QueueProjection) (f : WalRecord Blob),
      q.nextLeaseId ≤ (q.applyFrame f).nextLeaseId := fun q f => by
    cases f with
    | lease =>
      simp only [applyFrame, nextLeaseId_applyLeaseEvent]
      exact le_max_left _ _
    | _ => exact le_rfl
  induction log using reverseRecOn with
  | nil => cases hf
  | append_singleton log f' ih =>
    rw [folded_concat]
    rcases mem_append.mp hf with hf | hf
    · exact (ih hf).trans_le (hmono _ _)
    · cases mem_singleton.mp hf
      cases f with
      | lease topicId seq event node leaseId deadline deliveries ts =>
        cases event with
        | claimed =>
          simp only [grants, decide_eq_true_eq] at hg
          subst hg
          simp only [applyFrame, nextLeaseId_applyLeaseEvent]
          omega
        | _ => cases hg
      | _ => cases hg

theorem granted_of_folded {l : Lease} (h : (folded log).leases[x]? = some l) :
    (∃ f ∈ log, grants (x, l.leaseId) f = true) ∧ l.byWorkConn = none := by
  induction log using reverseRecOn generalizing l with
  | nil => simp [folded, QueueProjection.new] at h
  | append_singleton log f ih =>
    rw [folded_concat] at h
    rcases leases_applyFrame h with ⟨hg, hconn⟩ | ⟨l', hl', hid, hconn⟩
    · exact ⟨⟨f, mem_append_right _ (mem_singleton_self f), hg⟩, hconn⟩
    · obtain ⟨⟨f', hf', hg⟩, hnone⟩ := ih hl'
      rw [hid, hconn]
      exact ⟨⟨f', mem_append_left _ hf', hg⟩, hnone⟩

theorem recoverFrom_config (S : Serde Blob) (b : TopicState) (frames : List (WalRecord Blob)) :
    (b.recoverFrom S frames).config = b.config := by
  have hreplay : (b.replayAll S frames).config = b.config := by
    induction frames generalizing b with
    | nil => rfl
    | cons f frames ih => exact (ih _).trans (replay_config S b f)
  unfold recoverFrom
  rw [applyHeadWatermark_eq]
  split <;> exact hreplay

theorem replayAll_queue_of_ephemeral (S : Serde Blob)
    (hp : b.config.usesPersistentRecordStore = false) (frames : List (WalRecord Blob)) :
    (b.replayAll S frames).queue = b.queue := by
  induction frames generalizing b with
  | nil => rfl
  | cons f frames ih =>
    have hf : (b.replay S f).queue = b.queue := by
      cases f <;> simp [replay, hp]
    exact (ih (by rw [replay_config]; exact hp)).trans hf

theorem recoverFrom_queue {S : Serde Blob}
    (hbase : ∀ q, b.queue = some q → q = .new seqBaseDefault)
    (h : (b.recoverFrom S frames).queue = some q) :
    (b.config.usesPersistentRecordStore = true ∧ q = folded frames) ∨
      (b.config.usesPersistentRecordStore = false ∧ q = .new seqBaseDefault) := by
  unfold recoverFrom at h
  rw [applyHeadWatermark_queue] at h
  cases hp : b.config.usesPersistentRecordStore with
  | true =>
    rw [replayAll_queue S hp] at h
    obtain ⟨q₀, hq₀, rfl⟩ := map_eq_some_iff.mp h
    cases hbase q₀ hq₀
    exact .inl ⟨rfl, rfl⟩
  | false =>
    rw [replayAll_queue_of_ephemeral S hp] at h
    exact .inr ⟨rfl, hbase q h⟩

/-! ### One call -/

/-- What a call behind its critical section does: it logs, and every new claim in the log is one
of the deliveries. -/
structure Logs (issued : List (Nat × Nat)) (r r' : TopicRun Blob) : Prop where
  queue : r'.topic.queue = r.topic.queue
  config : r'.topic.config = r.topic.config
  frames : ∀ f ∈ r'.log, f ∈ r.log ∨ (∀ e, grants e f = true → e ∈ issued) ∧
    (r.topic.config.usesPersistentRecordStore = false → Silent f)

namespace Logs

variable {issued : List (Nat × Nat)} {r r' r'' : TopicRun Blob}

theorem grants_of_silent {f : WalRecord Blob} (h : Silent f) (e : Nat × Nat) :
    grants e f = false := by
  cases f with
  | lease => exact h.elim
  | _ => rfl

theorem of_quietly (h : Quietly r r') : Logs issued r r' := by
  obtain ⟨frames, hlog, hsilent⟩ := h.log
  refine ⟨h.queue, h.config, fun f hf => ?_⟩
  rw [hlog] at hf
  refine (mem_append.mp hf).imp_right fun hf => ⟨fun e he => ?_, fun _ => hsilent f hf⟩
  rw [grants_of_silent (hsilent f hf)] at he
  cases he

theorem trans (h : Logs issued r r') (h' : Logs issued r' r'') : Logs issued r r'' := by
  refine ⟨h'.queue.trans h.queue, h'.config.trans h.config, fun f hf => ?_⟩
  rcases h'.frames f hf with hf | ⟨hg, hs⟩
  · exact h.frames f hf
  · exact .inr ⟨hg, fun hp => hs (by rw [h.config]; exact hp)⟩

theorem logLeases (r : TopicRun Blob) (now : Int) {events : List LeaseNote}
    (h : ∀ e ∈ events, e.event = .claimed → (e.seq, e.leaseId) ∈ issued) :
    Logs issued r (r.logLeases now events) := by
  refine ⟨by rw [logLeases_topic], by rw [logLeases_topic], fun f hf => ?_⟩
  refine (mem_log_logLeases hf).imp_right ?_
  rintro ⟨hdur, e, he, rfl⟩
  refine ⟨fun d hd => ?_, fun hp => ?_⟩
  · obtain ⟨event, seq, node, leaseId, deadline, deliveries⟩ := e
    cases event with
    | claimed =>
      simp only [noteFrame, grants, decide_eq_true_eq] at hd
      rw [← hd]
      exact h _ he rfl
    | _ => cases hd
  · rw [leasesDurable, hp, Bool.and_false] at hdur
    cases hdur

theorem not_claimed_noted {event : LeaseEvent} (hev : event ≠ .claimed) {node : String}
    {deadline : Int} {held : List (Nat × Nat)} :
    ∀ e ∈ noted event node deadline held, e.event = .claimed → (e.seq, e.leaseId) ∈ issued := by
  intro e he hclaimed
  obtain ⟨d, -, rfl⟩ := mem_map.mp he
  exact absurd hclaimed hev

theorem ackAll (r : TopicRun Blob) (node : String) (now : Int) (held : List (Nat × Nat)) :
    Logs issued r
      (held.foldl
        (fun r (seq, leaseId) =>
          (r.deleteOneSeq now seq).logLeases now (noted .acked node 0 [(seq, leaseId)])) r) :=
  foldlRecOn (motive := Logs issued r) _ _ (.of_quietly (.refl _)) fun r' hr' e _ =>
    (hr'.trans (.of_quietly (Quietly.deleteOneSeq r' now e.1))).trans
      (logLeases _ now (not_claimed_noted (by decide)))

end Logs

structure Fenced (s : LeaseRun Blob) : Prop where
  config : s.base.config = s.run.topic.config
  base : ∀ q, s.base.queue = some q → q = .new seqBaseDefault
  nodup : s.issued.Nodup
  tokens : ∀ q, s.run.topic.queue = some q → Tokens s.issued q
  granted : ∀ f ∈ s.run.log, ∀ e, grants e f = true → e ∈ s.issued
  silent : s.run.topic.config.usesPersistentRecordStore = false → ∀ f ∈ s.run.log, Silent f

/-- **Condition**: a recovery replays the claim of every delivery so far. -/
def TokensKept (s : LeaseRun Blob) : LeaseCall → Prop
  | .crash kept => ∀ e ∈ s.issued, ∃ f ∈ s.run.log.take kept, grants e f = true
  | _ => True

instance (s : LeaseRun Blob) (c : LeaseCall) : Decidable (TokensKept s c) :=
  match c with
  | .crash _ => inferInstanceAs (Decidable (∀ e ∈ s.issued, ∃ f ∈ List.take _ _, _))
  | .write .. | .claim .. | .ack .. | .nack .. | .extend .. | .release .. | .snapshot _ =>
    isTrue trivial

section Step

variable {S : Serde Blob} {resolve : Nat → Value × Option Value} {s s' : LeaseRun Blob}

theorem Fenced.of_logs (h : Fenced s) {r r' : TopicRun Blob} {issued : List (Nat × Nat)}
    (hlog : r.log = s.run.log) (hconfig : r.topic.config = s.run.topic.config)
    (hissued : s.issued ⊆ issued) (hnodup : issued.Nodup)
    (htokens : ∀ q, r.topic.queue = some q → Tokens issued q) (hlogs : Logs issued r r') :
    Fenced { s with run := r', issued := issued } := by
  refine ⟨?_, h.base, hnodup, fun q hq => htokens q (hlogs.queue.symm.trans hq), fun f hf e he => ?_,
    fun hp f hf => ?_⟩
  · exact h.config.trans (hconfig.symm.trans hlogs.config.symm)
  · rcases hlogs.frames f hf with hold | ⟨hg, -⟩
    · rw [hlog] at hold
      exact hissued (h.granted f hold e he)
    · exact hg e he
  · have hp' : r.topic.config.usesPersistentRecordStore = false := by
      rw [← hlogs.config]
      exact hp
    rcases hlogs.frames f hf with hold | ⟨-, hs⟩
    · rw [hlog] at hold
      exact h.silent (by rw [← hconfig]; exact hp') f hold
    · exact hs hp'

theorem Fenced.of_section (h : Fenced s) {q : QueueProjection} (hq : Tokens s.issued q)
    {r' : TopicRun Blob} (hlogs : Logs s.issued (s.run.setQueue q) r') :
    Fenced { s with run := r' } :=
  h.of_logs (r := s.run.setQueue q) rfl rfl (List.Subset.refl _) h.nodup
    (fun _ hq' => by cases hq'; exact hq) hlogs

/-- **One call.** -/
theorem Fenced.step (hS : S.RoundTrips) (h : Fenced s) {c : LeaseCall} (hcond : TokensKept s c)
    (hstep : s.step S resolve c = some s') : Fenced s' := by
  cases c with
  | write records now =>
    cases hstep
    exact h.of_logs rfl rfl (List.Subset.refl _) h.nodup h.tokens
      (.of_quietly (Quietly.write S s.run records now))
  | claim claimers leaseMs now =>
    simp only [LeaseRun.step, map_eq_some_iff] at hstep
    obtain ⟨q, hq, rfl⟩ := hstep
    have hretain := Quietly.retain s.run now
    obtain ⟨htokens, hnodup⟩ := (h.tokens q (hretain.queue.symm.trans hq)).claimPass h.nodup
      (s.run.retain now).topic.index (s.run.retain now).topic.headSeq claimers
      ((s.run.retain now).claimTerms ((s.run.retain now).claimDeadline leaseMs now)) now
    generalize runClaimCohort q _ _ claimers _ now = pass at htokens hnodup ⊢
    have hretained : Fenced { s with run := s.run.retain now } :=
      h.of_logs rfl rfl (List.Subset.refl _) h.nodup h.tokens (.of_quietly hretain)
    refine hretained.of_logs (r := (s.run.retain now).setQueue pass.q) rfl rfl
      (subset_append_left _ _) hnodup (fun q' hq' => ?_) ?_
    · cases hq'
      exact htokens
    · refine (Logs.of_quietly (Quietly.deleteAll _ now pass.toDeadLetter)).trans
        (Logs.logLeases _ now fun e he _ => ?_)
      obtain ⟨d, hd, rfl⟩ := mem_map.mp he
      exact mem_append_right _ (mem_map.mpr ⟨d, hd, rfl⟩)
  | ack node seqs leaseIds now =>
    obtain ⟨q, hq, rfl⟩ := map_eq_some_iff.mp (ite_none_left_eq_some.mp hstep).2
    have htokens : Tokens s.issued (q.ackLeases node seqs leaseIds now).1 := by
      unfold ackLeases
      rw [ackLoop_eq_heldLoop]
      exact heldLoop_induct (P := fun q _ => Tokens s.issued q)
        (fun q _ seq l _ _ hq => hq.ackOne seq l) _ ((h.tokens q hq).sweepExpired now)
    exact h.of_section htokens (Logs.ackAll _ node now _)
  | nack node seqs leaseIds delayMs now =>
    obtain ⟨q, hq, rfl⟩ := map_eq_some_iff.mp (ite_none_left_eq_some.mp hstep).2
    have htokens : Tokens s.issued (q.nackLeases node seqs leaseIds delayMs now).1 :=
      heldLoop_induct (P := fun q _ => Tokens s.issued q)
        (fun q _ seq l _ _ hq => hq.nackOne delayMs now seq l) _ ((h.tokens q hq).sweepExpired now)
    exact h.of_section htokens (Logs.logLeases _ now (Logs.not_claimed_noted (by decide)))
  | extend node seqs leaseIds leaseMs now =>
    obtain ⟨q, hq, rfl⟩ := map_eq_some_iff.mp (ite_none_left_eq_some.mp hstep).2
    have htokens : Tokens s.issued (q.extendLeases node seqs leaseIds leaseMs now).1 :=
      heldLoop_induct (P := fun q _ => Tokens s.issued q)
        (fun q _ seq l hl _ hq => hq.extendOne _ hl) _ ((h.tokens q hq).sweepExpired now)
    exact h.of_section htokens (Logs.logLeases _ now (Logs.not_claimed_noted (by decide)))
  | release conn now =>
    obtain ⟨q, hq, rfl⟩ := map_eq_some_iff.mp hstep
    have htokens : Tokens s.issued (q.releaseConn conn).1 :=
      foldlRecOn (motive := Tokens s.issued) _ _ (h.tokens q hq) fun q hq e _ => hq.dropLease e.1
    refine h.of_section htokens (Logs.logLeases _ now fun e he hclaimed => ?_)
    obtain ⟨d, -, rfl⟩ := mem_map.mp he
    cases hclaimed
  | snapshot now =>
    cases hstep
    have hquiet : Quietly s.run ((s.run.logDurable [.checkpointMark 0 now.toNat]).retain now) :=
      (Quietly.logDurable s.run (by simp [Silent])).trans (Quietly.retain _ now)
    have hnext : Fenced { s with run := _ } :=
      h.of_logs rfl rfl (List.Subset.refl _) h.nodup h.tokens (.of_quietly hquiet)
    refine ⟨?_, fun q hq => ?_, hnext.nodup, hnext.tokens,
      fun f hf => hnext.granted f (mem_of_mem_drop hf),
      fun hp f hf => hnext.silent hp f (mem_of_mem_drop hf)⟩
    · exact config_captureTopic resolve hS
    · obtain ⟨-, hq⟩ := ite_none_right_eq_some.mp hq
      exact (some.inj hq).symm
  | crash kept =>
    obtain ⟨-, ⟨⟩⟩ := ite_none_right_eq_some.mp hstep
    have hgranted : ∀ f ∈ s.run.log.take kept, ∀ e, grants e f = true → e ∈ s.issued :=
      fun f hf => h.granted f (mem_of_mem_take hf)
    have hconfig := recoverFrom_config S s.base (s.run.log.take kept)
    refine ⟨hconfig.symm, h.base, h.nodup, fun q hq => ?_, hgranted, fun hp f hf => ?_⟩
    · rcases recoverFrom_queue h.base hq with ⟨-, rfl⟩ | ⟨hp, rfl⟩
      · refine ⟨fun e he => ?_, fun x l hl => ?_⟩
        · obtain ⟨f, hf, hg⟩ := hcond e he
          exact lt_nextLeaseId_folded hf hg
        · obtain ⟨⟨f, hf, hg⟩, -⟩ := granted_of_folded hl
          exact hgranted f hf _ hg
      · -- an ephemeral queue has logged nothing, so nothing was delivered
        refine ⟨fun e he => ?_, fun x l hl => by simp [QueueProjection.new] at hl⟩
        obtain ⟨f, hf, hg⟩ := hcond e he
        have hsilent := h.silent (by rw [← h.config]; exact hp) f (mem_of_mem_take hf)
        rw [Logs.grants_of_silent hsilent] at hg
        cases hg
    · refine h.silent ?_ f (mem_of_mem_take hf)
      rw [← h.config, ← hconfig]
      exact hp

theorem fenced_start (spec : TopicSpec) : Fenced (start spec : LeaseRun Blob) := by
  have hnew : ∀ q, spec.fresh.queue = some q → q = .new seqBaseDefault := fun q hq => by
    obtain ⟨-, hq⟩ := ite_none_right_eq_some.mp hq
    exact (some.inj hq).symm
  refine ⟨rfl, hnew, nodup_nil, fun q hq => ?_, nofun,
    fun _ _ hf => (not_mem_nil hf).elim⟩
  cases hnew q hq
  exact ⟨nofun, fun x l hl => by simp [QueueProjection.new] at hl⟩

/-- **A lease id fences its delivery.**  In every history of calls, snapshots and crashes in which
every recovery replays the claims of all deliveries made before, the lease held on a job belongs to
one delivery of it, and the id that another delivery got does not pass as its token. -/
theorem lease_ids_fence (hS : S.RoundTrips) {spec : TopicSpec} {calls : List LeaseCall}
    (halong : Along (step S resolve) TokensKept (start spec) calls)
    (hrun : exec (step S resolve) (start spec) calls = some s) {q : QueueProjection}
    (hq : s.run.topic.queue = some q) {seq : Nat} {l : Lease} (hl : q.leases[seq]? = some l) :
    (∃ j : Nat, s.issued[j]? = some (seq, l.leaseId)) ∧
      ∀ (i j : Nat) id, s.issued[i]? = some (seq, id) → s.issued[j]? = some (seq, l.leaseId) →
        ∀ leaseIds k, leaseIds[k]? = some (some id) →
          QueueProjection.leaseTokenOk leaseIds k l.leaseId = true → i = j := by
  have hinv : Fenced s := exec_invariant_along _ (I := Fenced)
    (fun _ _ _ h hc hs => h.step hS hc hs) (fenced_start spec) halong hrun
  refine ⟨mem_iff_getElem?.mp ((hinv.tokens q hq).held seq l hl), ?_⟩
  intro i j id hi hj leaseIds k hk hok
  -- the token is the id of the held lease, and no pair occurs twice
  rw [leaseTokenOk, hk] at hok
  have hid : id = l.leaseId := beq_iff_eq.mp hok
  subst hid
  exact (getElem?_inj (List.getElem?_eq_some_iff.mp hi).1 hinv.nodup).mp (hi.trans hj.symm)

end Step

/-- An `fsync` queue, with leases that are logged or not. -/
def leasing (leasesDurable : Bool) : TopicSpec :=
  ⟨"jobs", 1, { topicType := .queue, durability := some .fsync, leasesDurable := leasesDurable }, 0⟩

def emptyJob : RecordIn := ⟨none, none, .null, none⟩

def claimOne (node : String) (now : Int) : LeaseCall := .claim [⟨node, 1, none⟩] none now

/-- Node `a` claims the job, gives it back after a restart, and node `b` claims it. -/
def nackedAfterRestart : List LeaseCall :=
  [.write [emptyJob] 0, claimOne "a" 10, .crash 2, .nack "a" [1] [some 1] 0 20, claimOne "b" 30]

theorem lease_ids_fence_afterRestart :
    ∃ s q l, exec (step Serde.identity fun _ => (.null, none)) (start (leasing true))
        nackedAfterRestart = some s ∧ s.run.topic.queue = some q ∧ q.leases[1]? = some l ∧
      s.issued = [(1, 1), (1, 2)] ∧ l.leaseId = 2 ∧
      QueueProjection.leaseTokenOk [some 1] 0 l.leaseId = false := by
  have halong : Along (step Serde.identity fun _ => (.null, none)) TokensKept
      (start (leasing true)) nackedAfterRestart := by decide +kernel
  obtain ⟨s, q, l, hs, hq, hl, hissued, hid⟩ :
      ∃ s q l, exec (step Serde.identity fun _ => (.null, none)) (start (leasing true))
          nackedAfterRestart = some s ∧ s.run.topic.queue = some q ∧ q.leases[1]? = some l ∧
        s.issued = [(1, 1), (1, 2)] ∧ l.leaseId = 2 :=
    ⟨_, _, _, rfl, rfl, rfl, by decide +kernel, by decide +kernel⟩
  refine ⟨s, q, l, hs, hq, hl, hissued, hid, ?_⟩
  have hfence := (lease_ids_fence Serde.identity_roundTrips halong hs hq hl).2 0 1 1
    (by rw [hissued]; rfl) (by rw [hissued, hid]; rfl) [some 1] 0 rfl
  exact Bool.eq_false_iff.mpr fun hok => absurd (hfence hok) (by decide)

/-- Node `a` claims the job, and node `b` after a restart. -/
def claimedAfterRestart : List LeaseCall :=
  [.write [emptyJob] 0, claimOne "a" 10, .crash 1, claimOne "b" 20]

/-- The leases are logged, but a snapshot makes the recovery skip them. -/
def claimedAfterSnapshot : List LeaseCall :=
  [.write [emptyJob] 0, claimOne "a" 10, .snapshot 15, .crash 0, claimOne "b" 20]

/-- The token of the first delivery acks the second one. -/
def FirstTokenAcks (leasesDurable : Bool) (calls : List LeaseCall) : Prop :=
  ∃ s q, exec (step Serde.identity fun _ => (.null, none)) (start (leasing leasesDurable)) calls =
      some s ∧ s.run.topic.queue = some q ∧
    s.issued = [(1, 1), (1, 1)] ∧ (q.leases[1]?).map Lease.node = some "b" ∧
    (q.ackLeases "b" [1] [some 1] 25).2 = [(1, 1)]

theorem lease_id_reused :
    FirstTokenAcks false claimedAfterRestart ∧ FirstTokenAcks true claimedAfterSnapshot :=
  ⟨⟨_, _, rfl, rfl, by decide +kernel, by decide +kernel, by decide +kernel⟩,
    ⟨_, _, rfl, rfl, by decide +kernel, by decide +kernel, by decide +kernel⟩⟩

end LeaseRun

end Topics
