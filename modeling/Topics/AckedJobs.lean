import Topics.Lib.Threads
import Topics.DeadRecords
import Topics.QueueClaim
import Topics.TopicRun

/-!
# Acknowledged jobs and a concurrent snapshot

`delete_one_seq` commits the `Delete` frame of a job and only then removes it from memory, under
neither the append lock nor a publish ticket.  `capture` reads the WAL position first and the
topic later, so both may fall between the two steps of an ack.
-/

namespace Topics

open Lib TopicState Option List Outcome

variable {Blob : Type}

/-! ## Acks -/

namespace QueueProjection

/-- `lease_token_ok`: whether the fencing token at `i`, if there is one, is the held lease. -/
def leaseTokenOk (leaseIds : List (Option Nat)) (i held : Nat) : Bool :=
  match leaseIds[i]?.join with
  | some want => want == held
  | none => true

/-- The loop of `ack_fenced`: drop the leases `node` holds, and collect seq and lease id. -/
def ackLoop (node : String) (leaseIds : List (Option Nat)) :
    List (Nat × Nat) → QueueProjection × List (Nat × Nat) → QueueProjection × List (Nat × Nat)
  | [], acc => acc
  | (seq, i) :: rest, (q, acked) =>
    match q.leases[seq]? with
    | some l =>
      if l.node = node ∧ leaseTokenOk leaseIds i l.leaseId = true then
        ackLoop node leaseIds rest
          ({ q with leases := q.leases.erase seq, deliveries := q.deliveries.erase seq },
            acked ++ [(seq, l.leaseId)])
      else ackLoop node leaseIds rest (q, acked)
    | none => ackLoop node leaseIds rest (q, acked)

/-- The critical section of `ack_fenced`. -/
def ackLeases (q : QueueProjection) (node : String) (seqs : List Nat)
    (leaseIds : List (Option Nat)) (now : Int) : QueueProjection × List (Nat × Nat) :=
  ackLoop node leaseIds seqs.zipIdx (q.sweepExpired now, [])

end QueueProjection

/-! ## Dead letters -/

/-- The copy of a job that goes to the dead-letter topic, with its provenance in `meta`. -/
def deadLetterRecord (S : Serde Blob) (resolve : Nat → Value × Option Value) (source : String)
    (maxDeliveries : Nat) (now : Int) (seq : Nat) (r : StoredRecord) : StoredRecord :=
  let payload := slotPayload resolve seq r
  let srcMeta := match payload.2 with
    | some (.object kvs) => kvs
    | _ => []
  let meta? := some (Value.object
    ([("$dead_letter_from", .string source),
      ("$dead_letter_deliveries", .string (toString maxDeliveries)),
      ("$dead_letter_src_seq", .string (toString seq))].foldl insertField srcMeta))
  { ts := now
    node := r.node
    tag := r.tag
    data := payload.1
    «meta» := meta?
    bytes := payloadBytes S payload.1 meta?
    deleted := false
    payloadResident := true
    hops := 0 }

/-! ## The calls on a queue -/

/-- The queue topic, its dead-letter topic, the WAL shard they share, and the snapshot. -/
structure JobState (Blob : Type) where
  topic : TopicState
  /-- The dead-letter topic, once it is registered. -/
  deadLetter : Option TopicState
  log : List (WalRecord Blob)
  /-- How many frames an fsync has covered. -/
  synced : Nat
  /-- The position the snapshot has recorded. -/
  position : Option Nat
  /-- The topics the snapshot has captured. -/
  captured : List (SnapshotTopic Blob)
  /-- History: thread, seq and frame of the deletes that are logged and not yet made. -/
  unapplied : List (Nat × Nat × Nat)
  /-- History: the jobs of acks that have returned and those moved by completed claims. -/
  settled : List Nat

inductive JobInstr where
  | retain (now : Int)
  | plan (now : Int) (head : Nat)
  | watermark (plan : TopicState.RetentionAdvance) (head : Nat) (now : Int)
  | commit (plan : TopicState.RetentionAdvance) (head : Nat)
  | reclaim (head : Nat)
  | claim (claimers : List Claimer) (leaseMs : Option Nat) (now : Int)
  | ack (node : String) (seqs : List Nat) (leaseIds : List (Option Nat)) (now : Int)
  | openDeadLetter (now : Int)
  | putDeadLetter (now : Int)
  | copyJobs (seqs : List Nat) (now : Int)
  | appendDeadLetter (records : List StoredRecord) (now : Int)
  | deleteOne (seq : Nat) (now : Int)
  | logDelete (seq : Nat) (now : Int)
  /-- `frame` is the `Delete` frame that is already in the log. -/
  | remove (seq : Nat) (frame : Option Nat) (now : Int)
  | logLease (seq : Nat) (event : LeaseEvent) (node : String) (leaseId : Nat) (deadline : Int)
      (deliveries : Nat) (now : Int)
  | settle (seqs : List Nat)
  | barrier (now : Int)
  | readPosition
  | captureQueue
  | captureDeadLetter (now : Int)

/-- The calls.  A snapshot walks the registry in either order. -/
inductive JobCall where
  | claim (claimers : List Claimer) (leaseMs : Option Nat) (now : Int)
  | ack (node : String) (seqs : List Nat) (leaseIds : List (Option Nat)) (now : Int)
  | snapshot (queueFirst : Bool) (now : Int)

namespace JobCall

def body : JobCall → List JobInstr
  | .claim claimers leaseMs now => [.retain now, .claim claimers leaseMs now]
  | .ack node seqs leaseIds now => [.ack node seqs leaseIds now]
  | .snapshot queueFirst now =>
    [.barrier now, .readPosition] ++
      if queueFirst then [.retain now, .captureQueue, .captureDeadLetter now]
      else [.captureDeadLetter now, .retain now, .captureQueue]

end JobCall

/-- `config::MIN_LEASE_MS`. -/
def minLeaseMs : Nat := 100

/-- `config::MAX_LEASE_MS`. -/
def maxLeaseMs : Nat := 86400000

namespace JobState

/-- A call on the dead-letter topic, which logs behind the frames of the queue. -/
def onDeadLetter (s : JobState Blob) (d : TopicState)
    (call : TopicRun Blob → TopicRun Blob) : JobState Blob :=
  let r := call ⟨d, s.log, s.synced, [], [], []⟩
  { s with deadLetter := some r.topic, log := r.log, synced := r.synced }

def logDurable (s : JobState Blob) (f : WalRecord Blob) : JobState Blob :=
  { s with log := s.log ++ [f], synced := s.log.length + 1 }

def leasesDurable (s : JobState Blob) : Bool :=
  s.topic.config.leasesDurable && s.topic.config.usesPersistentRecordStore

/-- The instant until which a claim at `now` leases its jobs. -/
def claimDeadline (s : JobState Blob) (leaseMs : Option Nat) (now : Int) : Int :=
  min (2 ^ 63 - 1) (now + (max minLeaseMs (min (leaseMs.getD s.topic.config.leaseMs) maxLeaseMs)))

section Step

variable (S : Serde Blob) (resolve : Nat → Value × Option Value) (deadLetterId : Nat)

/-- What a claim goes on with after its critical section. -/
def afterClaim (pass : ClaimPass) (claimers : List Claimer) (deadline now : Int) :
    List JobInstr :=
  (if pass.toDeadLetter.isEmpty then []
    else [.openDeadLetter now, .copyJobs pass.toDeadLetter now] ++
      pass.toDeadLetter.map (.deleteOne · now)) ++
    (pass.leased.map fun (rr, seq, leaseId, deliveries) =>
      .logLease seq .claimed ((claimers[rr]?.map Claimer.node).getD "") leaseId deadline
        deliveries now) ++
    [.settle pass.toDeadLetter]

/-- What an ack goes on with after its critical section. -/
def afterAck (node : String) (acked : List (Nat × Nat)) (now : Int) : List JobInstr :=
  (acked.flatMap fun (seq, leaseId) =>
    [.deleteOne seq now, .logLease seq .acked node leaseId 0 0 now]) ++
    [.settle (acked.map Prod.fst)]

/-- One step of thread `t`.  No WAL operation fails; `deadLetterId` is the id the engine hands
out if the dead-letter topic has to be created. -/
def sem (s : JobState Blob) (t : Nat) (_ : Unit) :
    JobInstr → Option (Outcome (JobState Blob) JobInstr)
  | .retain now =>
    some (.next s (if s.topic.retentionIdle then [] else [.plan now s.topic.headSeq]))
  | .plan now head =>
    let plan := { s.topic with headSeq := head }.planRetention now
    some (.next s
      [if plan.floorAdvanced then
        if plan.durableAdvance && s.topic.config.usesPersistentRecordStore then
          .watermark plan head now
        else .commit plan head
      else .reclaim head])
  | .watermark plan head now =>
    some (.next
      (s.logDurable (.evictWatermark s.topic.topicId plan.evictFloor plan.expiryFloor
        (max plan.evictFloor plan.expiryFloor + 1) now.toNat))
      [.commit plan head])
  | .commit plan head =>
    some (.next { s with topic := s.topic.commitFloors plan } [.reclaim head])
  | .reclaim head => some (.next { s with topic := s.topic.reclaimFront head } [])
  | .claim claimers leaseMs now =>
    s.topic.queue.map fun q =>
      let deadline := s.claimDeadline leaseMs now
      let pass := runClaimCohort q s.topic.index s.topic.headSeq claimers
        ⟨s.topic.config.maxDeliveries, s.topic.config.deadLetter.isSome, deadline⟩ now
      .next { s with topic := { s.topic with queue := some pass.q } }
        (afterClaim pass claimers deadline now)
  | .ack node seqs leaseIds now =>
    if node = "" ∨ maxClaim < seqs.length ∨
        (leaseIds ≠ [] ∧ leaseIds.length ≠ seqs.length) then some (.stop s)
    else s.topic.queue.map fun q =>
      let (q, acked) := q.ackLeases node seqs leaseIds now
      .next { s with topic := { s.topic with queue := some q } } (afterAck node acked now)
  | .openDeadLetter now =>
    some (.next s (if s.deadLetter.isNone then [.putDeadLetter now] else []))
  | .putDeadLetter now =>
    -- `put_topic` of the defaults: another claim may have been faster
    s.topic.config.deadLetter.map fun name => .next
      (match s.deadLetter with
        | none =>
          { s.logDurable (.topicConfig deadLetterId ⟨name, S.configToVec {}⟩ false now.toNat) with
            deadLetter := some (TopicState.new name deadLetterId {} seqBaseDefault) }
        | some d => s.onDeadLetter d fun r => r.putTopic S {} now)
      []
  | .copyJobs seqs now =>
    some (.next s
      [.appendDeadLetter
        (seqs.filterMap fun q => (s.topic.index.live q).map
          (deadLetterRecord S resolve s.topic.name s.topic.config.maxDeliveries now q)) now])
  | .appendDeadLetter records now =>
    some (.next
      (match s.deadLetter with
        | some d =>
          if records.isEmpty then s
          else s.onDeadLetter d fun r => (r.appendBatch S records now).retain now
        | none => s)
      [])
  | .deleteOne seq now =>
    some (.next s
      (if s.topic.config.durabilityClass = .fsync then [.logDelete seq now]
      else [.remove seq none now]))
  | .logDelete seq now =>
    let f := .delete s.topic.topicId none none [seq] none now.toNat
    if s.topic.config.durabilityClass = .fsync then
      some (.next
        { s.logDurable f with unapplied := s.unapplied ++ [(t, seq, s.log.length)] }
        [.remove seq (some s.log.length) now])
    else some (.next { s with log := s.log ++ [f] } [])
  | .remove seq frame now =>
    let removed := { s with topic := s.topic.deleteSeqs [seq] }
    some (match frame with
      | some i =>
        .next { removed with unapplied := s.unapplied.filter (· ≠ (t, seq, i)) } []
      | none => .next removed [.logDelete seq now])
  | .logLease seq event node leaseId deadline deliveries now =>
    some (.next
      (if s.leasesDurable then
        s.logDurable (.lease s.topic.topicId seq event node leaseId deadline.toNat deliveries
          now.toNat)
      else s) [])
  | .settle seqs => some (.next { s with settled := s.settled ++ seqs } [])
  | .barrier now => some (.next (s.logDurable (.checkpointMark 0 now.toNat)) [])
  | .readPosition =>
    -- there is one snapshot
    if s.position = none then some (.next { s with position := some s.log.length } []) else none
  | .captureQueue =>
    some (.next { s with captured := s.captured ++ [captureTopic S resolve s.topic] } [])
  | .captureDeadLetter now =>
    some (.next
      (match s.deadLetter with
        | some d =>
          { s.onDeadLetter d fun r => r.retain now with
            captured := s.captured ++ [captureTopic S resolve (d.enforceRetention now)] }
        | none => s)
      [])

def step (s : Threads (JobState Blob) JobInstr) (a : ThreadAction JobCall Unit) :
    Option (Threads (JobState Blob) JobInstr) :=
  Threads.step JobCall.body (sem S resolve deadLetterId) s a

/-- A queue topic with whatever it holds, before any of the calls. -/
def start (b : TopicState) (deadLetter : Option TopicState) (log : List (WalRecord Blob)) :
    Threads (JobState Blob) JobInstr :=
  ⟨⟨b, deadLetter, log, log.length, none, [], [], []⟩, fun _ => []⟩

/-- Recovery from the snapshot and the first `k` frames of the log: `restore` the captured
topics, replay the frames behind the recorded position, reconcile the heads. -/
def recovered (s : JobState Blob) (k : Nat) (now : Int) : Engine :=
  (((s.log.take k).drop (s.position.getD 0)).foldl (Engine.replayFrame S now)
    ⟨s.captured.map fun sb => restoreTopic S sb (sb.config S), RouterGraph.empty,
      deadLetterId + 1⟩).applyHeadWatermarks

end Step

/-! ## What a recovery would find -/

/-- Frames that recovery of the queue topic can only shrink it by. -/
def Quiet (b₀ : TopicState) (f : WalRecord Blob) : Prop :=
  f.appendsTo b₀.topicId = false ∧ f.configures b₀.name = false

/-- The `Delete` frame of the job is on disk at `i`. -/
def Logged (b₀ : TopicState) (s : JobState Blob) (q i : Nat) : Prop :=
  i < s.synced ∧ ∃ f, s.log[i]? = some f ∧ f.deletesSeq b₀.topicId q = true

/-- Whether the snapshot has captured the queue topic. -/
def Taken (b₀ : TopicState) (s : JobState Blob) : Prop :=
  ∃ sb ∈ s.captured, sb.topicId = b₀.topicId

instance (b₀ : TopicState) (s : JobState Blob) : Decidable (Taken b₀ s) :=
  inferInstanceAs (Decidable (∃ sb ∈ s.captured, sb.topicId = b₀.topicId))

/-- The job is gone from memory, and from what the snapshot holds or the replay removes. -/
structure Erased (S : Serde Blob) (b₀ : TopicState) (s : JobState Blob) (q : Nat) : Prop where
  dead : s.topic.index.live q = none
  recovered : ∀ p, s.position = some p →
    (∀ sb ∈ s.captured, sb.topicId = b₀.topicId →
      (restoreTopic S sb (sb.config S)).index.live q = none) ∨
    ∃ i, p ≤ i ∧ Logged b₀ s q i

/-- What the calls never change: the identity of the queue topic and of its neighbour. -/
structure JobBase (b₀ : TopicState) (s : JobState Blob) : Prop where
  config : s.topic.config = b₀.config
  topicId : s.topic.topicId = b₀.topicId
  name : s.topic.name = b₀.name
  deadLetter : ∀ d ∈ s.deadLetter, d.topicId ≠ b₀.topicId ∧ d.name ≠ b₀.name
  synced : s.synced ≤ s.log.length

structure JobInv (S : Serde Blob) (b₀ : TopicState) (s : JobState Blob) : Prop
    extends JobBase b₀ s where
  behind : ∀ p, s.position = some p → p ≤ s.log.length ∧ ∀ f ∈ s.log.drop p, Quiet b₀ f
  captured : ∀ sb ∈ s.captured, sb.topicId = b₀.topicId →
    s.position ≠ none ∧ sb.name = b₀.name ∧ (sb.config S).usesPersistentRecordStore = true
  unapplied : ∀ t q i, (t, q, i) ∈ s.unapplied →
    Logged b₀ s q i ∧ (Taken b₀ s → ∀ p, s.position = some p → p ≤ i)
  settled : ∀ q ∈ s.settled, Erased S b₀ s q

/-! ## Steps that only add frames -/

/-- A step that can only shrink the topic and adds frames that can only shrink it. -/
structure Quietly (b₀ : TopicState) (s s' : JobState Blob) : Prop where
  config : s'.topic.config = s.topic.config
  topicId : s'.topic.topicId = s.topic.topicId
  name : s'.topic.name = s.topic.name
  headSeq : s'.topic.headSeq = s.topic.headSeq
  tail : s'.topic.index.tail = s.topic.index.tail
  tagExact : s.topic.index.TagExact → s'.topic.index.TagExact
  shrinks : s.topic.Shrinks s'.topic
  deadLetter : ∀ d ∈ s'.deadLetter, d.topicId ≠ b₀.topicId ∧ d.name ≠ b₀.name
  log : ∃ frames, s'.log = s.log ++ frames ∧ ∀ f ∈ frames, Quiet b₀ f
  synced : s.synced ≤ s'.synced ∧ s'.synced ≤ s'.log.length
  position : s'.position = s.position
  captured : ∃ extra, s'.captured = s.captured ++ extra ∧ ∀ sb ∈ extra, sb.topicId ≠ b₀.topicId
  unapplied : s'.unapplied = s.unapplied
  settled : s'.settled = s.settled

section Quietly

variable {S : Serde Blob} {b₀ : TopicState} {s s' : JobState Blob}

theorem Logged.mono {q i : Nat} (h : Logged b₀ s q i) (hsync : s.synced ≤ s'.synced)
    (hlog : s.log <+: s'.log) : Logged b₀ s' q i := by
  obtain ⟨hi, f, hf, hdel⟩ := h
  obtain ⟨frames, hframes⟩ := hlog
  refine ⟨hi.trans_le hsync, f, ?_, hdel⟩
  rw [← hframes, getElem?_append_left (List.getElem?_eq_some_iff.mp hf).1, hf]

namespace Quietly

theorem logged (h : Quietly b₀ s s') {q i : Nat} (hq : Logged b₀ s q i) : Logged b₀ s' q i := by
  obtain ⟨frames, hframes, -⟩ := h.log
  exact hq.mono h.synced.1 ⟨frames, hframes.symm⟩

theorem captured_of_topicId (h : Quietly b₀ s s') {sb : SnapshotTopic Blob}
    (hsb : sb ∈ s'.captured) (hid : sb.topicId = b₀.topicId) : sb ∈ s.captured := by
  obtain ⟨extra, hextra, hother⟩ := h.captured
  rw [hextra] at hsb
  exact (mem_append.mp hsb).resolve_right fun hmem => hother sb hmem hid

theorem erased (h : Quietly b₀ s s') {q : Nat} (hq : Erased S b₀ s q) : Erased S b₀ s' q := by
  refine ⟨h.shrinks.dead hq.dead, fun p hp => ?_⟩
  rw [h.position] at hp
  rcases hq.recovered p hp with hcap | ⟨i, hle, hlogged⟩
  · exact .inl fun sb hsb hid => hcap sb (h.captured_of_topicId hsb hid) hid
  · exact .inr ⟨i, hle, h.logged hlogged⟩

theorem inv (h : Quietly b₀ s s') (hs : JobInv S b₀ s) : JobInv S b₀ s' where
  config := h.config.trans hs.config
  topicId := h.topicId.trans hs.topicId
  name := h.name.trans hs.name
  deadLetter := h.deadLetter
  synced := h.synced.2
  behind p hp := by
    rw [h.position] at hp
    obtain ⟨hle, hquiet⟩ := hs.behind p hp
    obtain ⟨frames, hframes, hnew⟩ := h.log
    rw [hframes, length_append, drop_append_of_le_length hle]
    exact ⟨Nat.le_add_right_of_le hle, fun f hf => (mem_append.mp hf).elim (hquiet f) (hnew f)⟩
  captured sb hsb hid := by
    rw [h.position]
    exact hs.captured sb (h.captured_of_topicId hsb hid) hid
  unapplied t q i hmem := by
    rw [h.unapplied] at hmem
    obtain ⟨hlogged, hafter⟩ := hs.unapplied t q i hmem
    refine ⟨h.logged hlogged, fun ⟨sb, hsb, hid⟩ p hp => ?_⟩
    rw [h.position] at hp
    exact hafter ⟨sb, h.captured_of_topicId hsb hid, hid⟩ p hp
  settled q hq := by
    rw [h.settled] at hq
    exact h.erased (hs.settled q hq)

end Quietly

namespace JobBase

theorem steady (hs : JobBase b₀ s) {b : TopicState} (h : TopicState.Steady s.topic b)
    (hshrinks : s.topic.Shrinks b) (htag : s.topic.index.TagExact → b.index.TagExact) :
    Quietly b₀ s { s with topic := b } :=
  ⟨h.config, h.topicId, h.name, h.headSeq, h.tail, htag, hshrinks, hs.deadLetter,
    ⟨[], by simp, nofun⟩, ⟨le_rfl, hs.synced⟩, rfl, ⟨[], by simp, nofun⟩, rfl, rfl⟩

theorem requeue (hs : JobBase b₀ s) (q : Option QueueProjection) :
    Quietly b₀ s { s with topic := { s.topic with queue := q } } :=
  ⟨rfl, rfl, rfl, rfl, rfl, id, .of_index rfl, hs.deadLetter, ⟨[], by simp, nofun⟩,
    ⟨le_rfl, hs.synced⟩, rfl, ⟨[], by simp, nofun⟩, rfl, rfl⟩

theorem same (hs : JobBase b₀ s) : Quietly b₀ s s :=
  hs.steady (.refl _) (.refl _) id

theorem logDurable (hs : JobBase b₀ s) {f : WalRecord Blob} (hf : Quiet b₀ f) :
    Quietly b₀ s (s.logDurable f) := by
  refine ⟨rfl, rfl, rfl, rfl, rfl, id, .refl _, hs.deadLetter, ⟨[f], rfl, ?_⟩, ⟨?_, ?_⟩, rfl,
    ⟨[], by simp [JobState.logDurable], nofun⟩, rfl, rfl⟩
  · exact fun g hg => mem_singleton.mp hg ▸ hf
  · exact Nat.le_succ_of_le hs.synced
  · simp [JobState.logDurable]

end JobBase

end Quietly

variable {b₀ d : TopicState} {s s' : JobState Blob}

theorem Quietly.setDeadLetter (h : Quietly b₀ s s')
    (hd : d.topicId ≠ b₀.topicId ∧ d.name ≠ b₀.name) :
    Quietly b₀ s { s' with deadLetter := some d } :=
  { h with deadLetter := fun _ hd' => by cases hd'; exact hd }

theorem Quietly.capture (h : Quietly b₀ s s') {sb : SnapshotTopic Blob}
    (hsb : sb.topicId ≠ b₀.topicId) :
    Quietly b₀ s { s' with captured := s.captured ++ [sb] } :=
  { h with captured := ⟨[sb], rfl, fun _ hmem => mem_singleton.mp hmem ▸ hsb⟩ }

/-! ### Calls on the dead-letter topic -/

/-- A call on another topic of the same shard: the frames it logs are that topic's. -/
structure Foreign (b₀ : TopicState) (r r' : TopicRun Blob) : Prop extends
    r.Adds (Quiet b₀) r' where
  topicId : r'.topic.topicId = r.topic.topicId
  name : r'.topic.name = r.topic.name

namespace Foreign

variable {S : Serde Blob} {b₀ : TopicState} {r r' r'' : TopicRun Blob}

theorem trans (h : Foreign b₀ r r') (h' : Foreign b₀ r' r'') : Foreign b₀ r r'' :=
  ⟨h.toAdds.trans h'.toAdds, h'.topicId.trans h.topicId, h'.name.trans h.name⟩

theorem quiet_of_addresses {id : Nat} (hid : id ≠ b₀.topicId) {f : WalRecord Blob}
    (h : f.addresses id = true) : Quiet b₀ f := by
  cases f with
  | append i =>
    have hi : i = id := beq_iff_eq.mp h
    exact ⟨beq_false_of_ne (hi ▸ hid), rfl⟩
  | topicConfig => cases h
  | _ => exact ⟨rfl, rfl⟩

theorem retain (r : TopicRun Blob) (now : Int) : Foreign b₀ r (r.retain now) := by
  have hst := steady_enforceRetention r.topic now
  exact ⟨.retain r now fun _ _ _ _ _ => ⟨rfl, rfl⟩, hst.topicId, hst.name⟩

theorem putTopic (hname : r.topic.name ≠ b₀.name) (config : TopicConfig) (now : Int) :
    Foreign b₀ r (r.putTopic S config now) := by
  refine Foreign.trans ?_ (retain _ now)
  refine ⟨(TopicRun.Adds.logDurable fun f hf => ?_).trans (.of_log_eq rfl rfl), rfl, rfl⟩
  cases mem_singleton.mp hf
  exact ⟨rfl, beq_false_of_ne hname⟩

theorem appendBatch (hid : r.topic.topicId ≠ b₀.topicId) (stored : List StoredRecord)
    (now : Int) : Foreign b₀ r (r.appendBatch S stored now) := by
  obtain ⟨n, htopic⟩ := r.appendBatch_topic (S := S) stored now
  refine ⟨.appendBatch r stored now (fun f hf => ?_) fun _ _ => ⟨rfl, rfl⟩, ?_, ?_⟩
  · exact quiet_of_addresses hid (WritePath.addresses_appendFrames now _ _ f hf)
  · rw [htopic]
    exact append_topicId _ _
  · rw [htopic]
    exact append_name _ _

end Foreign

theorem JobBase.onDeadLetter (hs : JobBase b₀ s) (hd : d ∈ s.deadLetter)
    {call : TopicRun Blob → TopicRun Blob}
    (hcall : ∀ r : TopicRun Blob, r.topic.topicId ≠ b₀.topicId → r.topic.name ≠ b₀.name →
      Foreign b₀ r (call r)) : Quietly b₀ s (s.onDeadLetter d call) := by
  obtain ⟨hid, hname⟩ := hs.deadLetter d hd
  have h := hcall ⟨d, s.log, s.synced, [], [], []⟩ hid hname
  refine ⟨rfl, rfl, rfl, rfl, rfl, id, .refl _, fun d' hd' => ?_, h.log, h.synced hs.synced, rfl,
    ⟨[], by simp [JobState.onDeadLetter], nofun⟩, rfl, rfl⟩
  cases hd'
  exact ⟨by rw [h.topicId]; exact hid, by rw [h.name]; exact hname⟩

end JobState

/-! ## The code of a thread -/

/-- What a step relies on: a job that is erased, or the recorded position. -/
inductive Due where
  | job (q : Nat)
  | position

namespace JobInstr

/-- A call returns when its jobs are erased; a topic is captured behind the position. -/
def needs : JobInstr → List Due
  | .settle seqs => seqs.map .job
  | .captureQueue => [.position]
  | _ => []

def provides : JobInstr → List Due
  | .deleteOne q _ => [.job q]
  | .logDelete q _ => [.job q]
  | .remove q _ _ => [.job q]
  | .readPosition => [.position]
  | _ => []

def isRemove : JobInstr → Bool
  | .remove .. => true
  | _ => false

def capturesQueue : JobInstr → Bool
  | .captureQueue => true
  | _ => false

def ofSnapshot : JobInstr → Bool
  | .barrier _ | .readPosition | .captureQueue | .captureDeadLetter _ => true
  | _ => false

/-- The steps that neither delete a job nor record anything about the queue topic. -/
def quiet : JobInstr → Bool
  | .logDelete .. | .remove .. | .settle _ | .readPosition | .captureQueue => false
  | _ => true

/-- A step of a claim or an ack that needs nothing and is no removal. -/
structure Plain (j : JobInstr) : Prop where
  needs : j.needs = []
  isRemove : j.isRemove = false
  ofSnapshot : j.ofSnapshot = false

structure Goes (i : JobInstr) (more : List JobInstr) : Prop where
  provides : ∀ o ∈ i.provides, ∃ j ∈ more, o ∈ j.provides
  ordered : ∀ met, Lib.Ordered JobInstr.needs JobInstr.provides met more
  plain : ∀ j ∈ more, j.isRemove = false ∧ j.ofSnapshot = false

theorem goes_plain {i : JobInstr} {more : List JobInstr} (hprov : i.provides = [])
    (hmore : ∀ j ∈ more, j.Plain) : Goes i more :=
  ⟨by simp [hprov], fun _ => ordered_of_no_needs fun j hj => (hmore j hj).needs,
    fun j hj => ⟨(hmore j hj).isRemove, (hmore j hj).ofSnapshot⟩⟩

theorem goes_settle {i : JobInstr} {more : List JobInstr} {seqs : List Nat}
    (hprov : i.provides = []) (hmore : ∀ j ∈ more, j.Plain)
    (hseqs : ∀ q ∈ seqs, ∃ now, .deleteOne q now ∈ more) : Goes i (more ++ [.settle seqs]) := by
  refine ⟨by simp [hprov], fun met => ?_, fun j hj => ?_⟩
  · refine ordered_concat (fun j hj => (hmore j hj).needs) fun o ho => ?_
    obtain ⟨q, hq, rfl⟩ := mem_map.mp ho
    obtain ⟨now, hdelete⟩ := hseqs q hq
    exact .inr ⟨_, hdelete, mem_cons_self⟩
  · rcases mem_append.mp hj with hj | hj
    · exact ⟨(hmore j hj).isRemove, (hmore j hj).ofSnapshot⟩
    · cases mem_singleton.mp hj
      exact ⟨rfl, rfl⟩

end JobInstr

namespace JobState

/-! ## Quiet steps -/

section QuietSteps

variable {S : Serde Blob} {resolve : Nat → Value × Option Value} {deadLetterId : Nat}
  {b₀ : TopicState} {s : JobState Blob} {t : Nat} {i : JobInstr}
  {o : Outcome (JobState Blob) JobInstr}

/-- **The state behind a quiet step.** -/
theorem sem_quiet (hs : JobBase b₀ s) (hname : b₀.config.deadLetter ≠ some b₀.name)
    (hid : deadLetterId ≠ b₀.topicId) (hi : i.quiet = true)
    (h : sem S resolve deadLetterId s t () i = some o) : Quietly b₀ s o.shared := by
  cases i with
  | retain now | plan now head | openDeadLetter now | copyJobs seqs now | deleteOne q now =>
    cases h
    exact hs.same
  | watermark plan head now | barrier now =>
    cases h
    exact hs.logDurable ⟨rfl, rfl⟩
  | commit plan head =>
    cases h
    exact hs.steady (steady_commitFloors _ plan)
      (shrinks_commitFloors _ plan) fun htag => by
        rw [commitFloors_index]
        exact htag
  | reclaim head =>
    cases h
    exact hs.steady (steady_reclaimFront _ head)
      (shrinks_reclaimFront _ head) fun htag =>
        tagExact_reclaimFront htag head
  | claim claimers leaseMs now =>
    obtain ⟨q, -, rfl⟩ := map_eq_some_iff.mp h
    exact hs.requeue _
  | ack node seqs leaseIds now =>
    simp only [sem] at h
    split at h
    · cases h
      exact hs.same
    · obtain ⟨q, -, rfl⟩ := map_eq_some_iff.mp h
      exact hs.requeue _
  | putDeadLetter now =>
    obtain ⟨name, hdl, rfl⟩ := map_eq_some_iff.mp h
    have hne : name ≠ b₀.name := by
      rintro rfl
      exact hname (by rw [← hs.config]; exact hdl)
    simp only [shared]
    split
    · have hquiet : Quiet b₀ (.topicConfig deadLetterId ⟨name, S.configToVec {}⟩ false now.toNat) :=
        ⟨rfl, beq_false_of_ne hne⟩
      exact (hs.logDurable hquiet).setDeadLetter ⟨hid, hne⟩
    · rename_i d hd
      exact hs.onDeadLetter hd fun r _ hr => Foreign.putTopic hr {} now
  | appendDeadLetter records now =>
    cases h
    simp only [shared]
    split
    · rename_i d hd
      split
      · exact hs.same
      · exact hs.onDeadLetter hd fun r hr _ =>
          (Foreign.appendBatch hr records now).trans (Foreign.retain _ now)
    · exact hs.same
  | logLease q event node leaseId deadline deliveries now =>
    cases h
    simp only [shared]
    split
    · exact hs.logDurable ⟨rfl, rfl⟩
    · exact hs.same
  | captureDeadLetter now =>
    cases h
    simp only [shared]
    split
    · rename_i d hd
      refine (hs.onDeadLetter hd fun r _ _ => Foreign.retain r now).capture ?_
      rw [captureTopic_topicId, (steady_enforceRetention d now).topicId]
      exact (hs.deadLetter d hd).1
    · exact hs.same
  | _ => cases hi

theorem goes_afterClaim (pass : ClaimPass) (claimers : List Claimer) (deadline now : Int)
    (hprov : i.provides = []) : i.Goes (afterClaim pass claimers deadline now) := by
  refine JobInstr.goes_settle hprov (fun j hj => ?_) fun q hq => ?_
  · rcases mem_append.mp hj with hj | hj
    · split at hj
      · cases hj
      rcases mem_append.mp hj with hj | hj
      · simp only [mem_cons, not_mem_nil, or_false] at hj
        rcases hj with rfl | rfl <;> exact ⟨rfl, rfl, rfl⟩
      · obtain ⟨q, -, rfl⟩ := mem_map.mp hj
        exact ⟨rfl, rfl, rfl⟩
    · obtain ⟨e, -, rfl⟩ := mem_map.mp hj
      exact ⟨rfl, rfl, rfl⟩
  · refine ⟨now, mem_append_left _ ?_⟩
    rw [if_neg (by simpa using ne_nil_of_mem hq)]
    exact mem_append_right _ (mem_map_of_mem hq)

theorem goes_afterAck (node : String) (acked : List (Nat × Nat)) (now : Int)
    (hprov : i.provides = []) : i.Goes (afterAck node acked now) := by
  refine JobInstr.goes_settle hprov (fun j hj => ?_) fun q hq => ?_
  · obtain ⟨e, -, he⟩ := mem_flatMap.mp hj
    simp only [mem_cons, not_mem_nil, or_false] at he
    rcases he with rfl | rfl
    all_goals exact ⟨rfl, rfl, rfl⟩
  · obtain ⟨e, he, rfl⟩ := mem_map.mp hq
    exact ⟨now, mem_flatMap.mpr ⟨e, he, mem_cons_self⟩⟩

/-- **The code behind a quiet step** of an `fsync` queue. -/
theorem sem_code (hclass : s.topic.config.durabilityClass = .fsync) (hi : i.quiet = true)
    (h : sem S resolve deadLetterId s t () i = some o) :
    (∃ s', o = .stop s') ∨ ∃ s' more, o = .next s' more ∧ i.Goes more := by
  have hone : ∀ {j : JobInstr}, j.Plain → ∀ k ∈ [j], k.Plain :=
    fun hj k hk => mem_singleton.mp hk ▸ hj
  cases i with
  | retain now =>
    cases h
    refine .inr ⟨_, _, rfl, JobInstr.goes_plain rfl fun j hj => ?_⟩
    split at hj
    · cases hj
    · exact hone ⟨rfl, rfl, rfl⟩ j hj
  | plan now head =>
    cases h
    refine .inr ⟨_, _, rfl, JobInstr.goes_plain rfl fun j hj => ?_⟩
    cases mem_singleton.mp hj
    split
    · split <;> exact ⟨rfl, rfl, rfl⟩
    · exact ⟨rfl, rfl, rfl⟩
  | watermark plan head now | commit plan head | copyJobs seqs now =>
    cases h
    exact .inr ⟨_, _, rfl, JobInstr.goes_plain rfl (hone ⟨rfl, rfl, rfl⟩)⟩
  | reclaim | appendDeadLetter | barrier | captureDeadLetter | logLease =>
    cases h
    exact .inr ⟨_, _, rfl, JobInstr.goes_plain rfl nofun⟩
  | claim claimers leaseMs now =>
    obtain ⟨q, -, rfl⟩ := map_eq_some_iff.mp h
    exact .inr ⟨_, _, rfl, goes_afterClaim _ claimers _ now rfl⟩
  | ack node seqs leaseIds now =>
    simp only [sem] at h
    split at h
    · cases h
      exact .inl ⟨_, rfl⟩
    · obtain ⟨q, -, rfl⟩ := map_eq_some_iff.mp h
      exact .inr ⟨_, _, rfl, goes_afterAck node _ now rfl⟩
  | openDeadLetter now =>
    cases h
    refine .inr ⟨_, _, rfl, JobInstr.goes_plain rfl fun j hj => ?_⟩
    split at hj
    · exact hone ⟨rfl, rfl, rfl⟩ j hj
    · cases hj
  | putDeadLetter now =>
    obtain ⟨name, -, rfl⟩ := map_eq_some_iff.mp h
    exact .inr ⟨_, _, rfl, JobInstr.goes_plain rfl nofun⟩
  | deleteOne q now =>
    cases h
    have hmore : ∀ j ∈ [JobInstr.logDelete q now], j.Plain := hone ⟨rfl, rfl, rfl⟩
    refine .inr ⟨_, _, rfl, ?_⟩
    rw [if_pos hclass]
    exact ⟨fun o ho => ⟨_, mem_cons_self, ho⟩,
      fun _ => ordered_of_no_needs fun j hj => (hmore j hj).needs,
      fun j hj => ⟨(hmore j hj).isRemove, (hmore j hj).ofSnapshot⟩⟩
  | _ => cases hi

end QuietSteps

/-! ## The invariant of a thread -/

def Met (S : Serde Blob) (b₀ : TopicState) (s : JobState Blob) : Due → Prop
  | .job q => Erased S b₀ s q
  | .position => s.position ≠ none

/-- The invariant of a thread's code.  A removal comes next after its frame was logged. -/
structure CodeInv (S : Serde Blob) (b₀ : TopicState) (s : JobState Blob) (t : Nat)
    (code : List JobInstr) : Prop where
  ordered : Lib.Ordered JobInstr.needs JobInstr.provides (Met S b₀ s) code
  head : ∀ q frame now rest, code = .remove q frame now :: rest →
    ∃ i, frame = some i ∧ (t, q, i) ∈ s.unapplied
  tail : ∀ j ∈ code.tail, j.isRemove = false

section Code

variable {S : Serde Blob} {b₀ : TopicState} {s s' : JobState Blob} {t : Nat} {i : JobInstr}
  {more rest : List JobInstr}

theorem CodeInv.other {code : List JobInstr} (h : CodeInv S b₀ s t code)
    (hmet : ∀ o, Met S b₀ s o → Met S b₀ s' o)
    (hkeep : ∀ q i, (t, q, i) ∈ s.unapplied → (t, q, i) ∈ s'.unapplied) :
    CodeInv S b₀ s' t code where
  ordered := h.ordered.mono hmet
  head q frame now rest hcode := by
    obtain ⟨i, hframe, hmem⟩ := h.head q frame now rest hcode
    exact ⟨i, hframe, hkeep q i hmem⟩
  tail := h.tail

section

variable (h : CodeInv S b₀ s t (i :: rest)) (hmet : ∀ o, Met S b₀ s o → Met S b₀ s' o)

include h hmet

theorem CodeInv.own (hprov : ∀ o ∈ i.provides, Met S b₀ s' o ∨ ∃ j ∈ more, o ∈ j.provides)
    (hmore : Lib.Ordered JobInstr.needs JobInstr.provides (Met S b₀ s') more)
    (hplain : ∀ j ∈ more, j.isRemove = false) : CodeInv S b₀ s' t (more ++ rest) := by
  have hno : ∀ j ∈ more ++ rest, j.isRemove = false := fun j hj =>
    (mem_append.mp hj).elim (hplain j) (h.tail j)
  refine ⟨h.ordered.run hmet hprov hmore, fun q frame now rest' hcode => ?_, fun j hj =>
    hno j (mem_of_mem_tail hj)⟩
  have := hno (.remove q frame now) (hcode ▸ mem_cons_self)
  cases this

theorem CodeInv.next (hprov : ∀ o ∈ i.provides, Met S b₀ s' o) : CodeInv S b₀ s' t rest := by
  have hown : CodeInv S b₀ s' t ([] ++ rest) :=
    h.own hmet (fun o ho => .inl (hprov o ho)) trivial nofun
  exact hown

end

theorem Quietly.met (h : Quietly b₀ s s') : ∀ o, Met S b₀ s o → Met S b₀ s' o
  | .job _, ho => h.erased ho
  | .position, ho => by
    change s'.position ≠ none
    rw [h.position]
    exact ho

def Kept (S : Serde Blob) (b₀ : TopicState) (s s' : JobState Blob) (t : Nat)
    (code : List JobInstr) : Prop :=
  JobInv S b₀ s' ∧ CodeInv S b₀ s' t code ∧
    ∀ t' code, t' ≠ t → CodeInv S b₀ s t' code → CodeInv S b₀ s' t' code

theorem Quietly.kept (h : Quietly b₀ s s') (hs : JobInv S b₀ s)
    (hQ : CodeInv S b₀ s t (i :: rest)) (hprov : ∀ o ∈ i.provides, ∃ j ∈ more, o ∈ j.provides)
    (hmore : Lib.Ordered JobInstr.needs JobInstr.provides (Met S b₀ s') more)
    (hplain : ∀ j ∈ more, j.isRemove = false) : Kept S b₀ s s' t (more ++ rest) := by
  refine ⟨h.inv hs, hQ.own h.met (fun o ho => .inr (hprov o ho)) hmore hplain, ?_⟩
  intro t' code _ hcode
  refine hcode.other h.met fun q i hmem => ?_
  rw [h.unapplied]
  exact hmem

/-! ## One step -/

/-- The condition on a step: when the topic is captured, every removal whose frame lies before
the recorded position has been made. -/
def CapturesApplied (s : JobState Blob) (_ : Nat) (i : JobInstr) : Prop :=
  i.capturesQueue = true → ∀ e ∈ s.unapplied, s.position.getD 0 ≤ e.2.2

instance (s : JobState Blob) (t : Nat) (i : JobInstr) : Decidable (CapturesApplied s t i) :=
  inferInstanceAs (Decidable (_ → _))

/-- **The frame of a delete**: it is on disk, and its removal comes next. -/
theorem kept_logDelete (hs : JobInv S b₀ s) {q : Nat} {now : Int}
    (hQ : CodeInv S b₀ s t (.logDelete q now :: rest)) :
    Kept S b₀ s
      { s.logDurable (.delete s.topic.topicId none none [q] none now.toNat) with
        unapplied := s.unapplied ++ [(t, q, s.log.length)] } t
      (.remove q (some s.log.length) now :: rest) := by
  have hquiet := hs.logDurable (f := .delete s.topic.topicId none none [q] none now.toNat) ⟨rfl, rfl⟩
  have hinv := hquiet.inv hs
  have hnew : Logged b₀ (s.logDurable (.delete s.topic.topicId none none [q] none now.toNat)) q
      s.log.length := by
    refine ⟨Nat.lt_succ_self _, _, getElem?_concat_length .., ?_⟩
    simp [WalRecord.deletesSeq, hs.topicId]
  have hmet : ∀ o, Met S b₀ s o → Met S b₀ { s.logDurable
      (.delete s.topic.topicId none none [q] none now.toNat) with
        unapplied := s.unapplied ++ [(t, q, s.log.length)] } o := by
    rintro (q' | _) ho
    · have := hquiet.met (S := S) (.job q') ho
      exact ⟨this.dead, this.recovered⟩
    · exact ho
  refine ⟨?_, ?_, ?_⟩
  · refine ⟨{ hinv with }, hinv.behind,
      hinv.captured, fun t' q' i' hmem => ?_, fun q' hq' => ?_⟩
    · rcases mem_append.mp hmem with hmem | hmem
      · exact hinv.unapplied t' q' i' hmem
      · cases mem_singleton.mp hmem
        exact ⟨hnew, fun _ p hp => (hs.behind p hp).1⟩
    · exact hmet (.job q') (hs.settled q' hq')
  · refine ⟨⟨forall_mem_nil _, hQ.ordered.2.mono fun o ho => ho.imp_left (hmet o)⟩, ?_, hQ.tail⟩
    · intro q' frame now' rest' hcode
      cases hcode
      exact ⟨_, rfl, mem_append_right _ mem_cons_self⟩
  · intro t' code _ hcode
    exact hcode.other hmet fun q' i' hmem => mem_append_left _ hmem

/-- **The removal**: its frame makes up for a snapshot that still holds the job. -/
theorem kept_remove (hs : JobInv S b₀ s) {q k : Nat} {now : Int}
    (hQ : CodeInv S b₀ s t (.remove q (some k) now :: rest)) :
    Kept S b₀ s
      { s with
        topic := s.topic.deleteSeqs [q]
        unapplied := s.unapplied.filter (· ≠ (t, q, k)) } t rest := by
  have hst := steady_deleteSeqs s.topic [q]
  have hquiet := hs.steady hst (shrinks_deleteSeqs s.topic [q])
    fun h => tagExact_deleteSeqs h [q]
  have hinv := hquiet.inv hs
  obtain ⟨i, hframe, hmem⟩ := hQ.head q (some k) now rest rfl
  cases hframe
  obtain ⟨hlogged, hafter⟩ := hs.unapplied t q k hmem
  have hmet : ∀ o, Met S b₀ s o → Met S b₀ { s with
      topic := s.topic.deleteSeqs [q], unapplied := s.unapplied.filter (· ≠ (t, q, k)) } o := by
    rintro (q' | _) ho
    · have := hquiet.met (S := S) (.job q') ho
      exact ⟨this.dead, this.recovered⟩
    · exact ho
  have herased : Erased S b₀ { s with
      topic := s.topic.deleteSeqs [q], unapplied := s.unapplied.filter (· ≠ (t, q, k)) } q := by
    refine ⟨s.topic.live_deleteSeqs_of_mem mem_cons_self, fun p hp => ?_⟩
    by_cases htaken : Taken b₀ s
    · exact .inr ⟨k, hafter htaken p hp, hlogged⟩
    · exact .inl fun sb hsb hid => absurd ⟨sb, hsb, hid⟩ htaken
  refine ⟨?_, ?_, ?_⟩
  · refine ⟨{ hinv with }, hinv.behind,
      hinv.captured, fun t' q' i' hmem => ?_, fun q' hq' => hmet (.job q') (hs.settled q' hq')⟩
    exact hinv.unapplied t' q' i' (mem_filter.mp hmem).1
  · refine hQ.next hmet fun o ho => ?_
    cases mem_singleton.mp ho
    exact herased
  · intro t' code ht hcode
    refine hcode.other hmet fun q' i' hmem => mem_filter.mpr ⟨hmem, ?_⟩
    refine decide_eq_true fun h => ht ?_
    exact congrArg Prod.fst h

/-- **A call returns** when the jobs it was asked to remove are erased. -/
theorem kept_settled (hs : JobInv S b₀ s) {seqs : List Nat}
    (hQ : CodeInv S b₀ s t (.settle seqs :: rest)) :
    Kept S b₀ s { s with settled := s.settled ++ seqs } t rest := by
  have hmet : ∀ o, Met S b₀ s o → Met S b₀ { s with settled := s.settled ++ seqs } o := by
    rintro (q | _) ho
    · exact ⟨ho.dead, ho.recovered⟩
    · exact ho
  refine ⟨?_, ?_, fun t' code _ hcode => hcode.other hmet fun q i hmem => hmem⟩
  · refine ⟨{ hs with }, hs.behind, hs.captured,
      hs.unapplied, fun q hq => ?_⟩
    rcases mem_append.mp hq with hq | hq
    · exact hmet (.job q) (hs.settled q hq)
    · exact hmet (.job q) (hQ.ordered.1 (.job q) (mem_map_of_mem hq))
  · exact hQ.next hmet nofun

/-- **The position** is recorded before anything of the topic is captured. -/
theorem kept_readPosition (hs : JobInv S b₀ s) (hnone : s.position = none)
    (hQ : CodeInv S b₀ s t (.readPosition :: rest)) :
    Kept S b₀ s { s with position := some s.log.length } t rest := by
  have hcap : ∀ sb ∈ s.captured, sb.topicId ≠ b₀.topicId := fun sb hsb hid =>
    (hs.captured sb hsb hid).1 hnone
  have hmet : ∀ o, Met S b₀ s o → Met S b₀ { s with position := some s.log.length } o := by
    rintro (q | _) ho
    · exact ⟨ho.dead, fun p _ => .inl fun sb hsb hid => absurd hid (hcap sb hsb)⟩
    · exact some_ne_none _
  refine ⟨?_, ?_, fun t' code _ hcode => hcode.other hmet fun q i hmem => hmem⟩
  · refine ⟨{ hs with }, fun p hp => ?_,
      fun sb hsb hid => absurd hid (hcap sb hsb), fun t' q i hmem => ?_,
      fun q hq => hmet (.job q) (hs.settled q hq)⟩
    · cases hp
      refine ⟨le_rfl, fun f hf => ?_⟩
      rw [drop_length] at hf
      cases hf
    · refine ⟨(hs.unapplied t' q i hmem).1, fun ⟨sb, hsb, hid⟩ => absurd hid (hcap sb hsb)⟩
  · refine hQ.next hmet fun o ho => ?_
    cases mem_singleton.mp ho
    exact some_ne_none _

/-- **The capture**, under the condition: what is erased from memory is not in the snapshot, and
what is still to be removed has its frame behind the position. -/
theorem kept_captureQueue (hS : S.RoundTrips) {resolve : Nat → Value × Option Value}
    (hp : b₀.config.usesPersistentRecordStore = true) (hs : JobInv S b₀ s)
    (hcond : CapturesApplied s t .captureQueue)
    (hQ : CodeInv S b₀ s t (.captureQueue :: rest)) :
    Kept S b₀ s { s with captured := s.captured ++ [captureTopic S resolve s.topic] } t rest := by
  have hpos : s.position ≠ none := hQ.ordered.1 .position mem_cons_self
  have hpt : s.topic.config.usesPersistentRecordStore = true := by
    rw [hs.config]
    exact hp
  have hmet : ∀ o, Met S b₀ s o →
      Met S b₀ { s with captured := s.captured ++ [captureTopic S resolve s.topic] } o := by
    rintro (q | _) ho
    · refine ⟨ho.dead, fun p hp => (ho.recovered p hp).imp_left fun hcap sb hsb hid => ?_⟩
      rcases mem_append.mp hsb with hsb | hsb
      · exact hcap sb hsb hid
      · cases mem_singleton.mp hsb
        exact dead_snapshotTopic hS resolve hpt ho.dead
    · exact ho
  refine ⟨?_, ?_, fun t' code _ hcode => hcode.other hmet fun q i hmem => hmem⟩
  · refine ⟨{ hs with }, hs.behind,
      fun sb hsb hid => ?_, fun t' q i hmem => ?_, fun q hq => hmet (.job q) (hs.settled q hq)⟩
    · rcases mem_append.mp hsb with hsb | hsb
      · exact hs.captured sb hsb hid
      cases mem_singleton.mp hsb
      refine ⟨hpos, ?_, ?_⟩
      · rw [← hs.name]
        exact captureTopic_name S resolve s.topic
      · rw [config_captureTopic resolve hS]
        exact hpt
    · refine ⟨(hs.unapplied t' q i hmem).1, fun _ p hp => ?_⟩
      have := hcond rfl (t', q, i) hmem
      rw [show s.position = some p from hp] at this
      exact this
  · exact hQ.next hmet nofun

/-- **Step lemma.** -/
theorem keeps (hS : S.RoundTrips) (resolve : Nat → Value × Option Value) {deadLetterId : Nat}
    (hfs : b₀.config.durabilityClass = .fsync) (hname : b₀.config.deadLetter ≠ some b₀.name)
    (hid : deadLetterId ≠ b₀.topicId) :
    Threads.Keeps CapturesApplied (JobInv S b₀) (CodeInv S b₀) (sem S resolve deadLetterId) := by
  intro s t x i rest o hcond hs hQ h
  have hclass : s.topic.config.durabilityClass = .fsync := by
    rw [hs.config]
    exact hfs
  cases hi : i.quiet with
  | true =>
    have hquiet := sem_quiet hs.toJobBase hname hid hi h
    rcases sem_code hclass hi h with ⟨s', rfl⟩ | ⟨s', more, rfl, hmore⟩
    · refine ⟨hquiet.inv hs, ⟨trivial, nofun, nofun⟩, fun t' code _ hcode => ?_⟩
      exact hcode.other hquiet.met fun q i hmem => by rw [hquiet.unapplied]; exact hmem
    · exact hquiet.kept hs hQ hmore.provides (hmore.ordered _) fun j hj => (hmore.plain j hj).1
  | false =>
    cases i with
    | logDelete q now =>
      simp only [sem, hclass, if_true] at h
      cases h
      exact kept_logDelete hs hQ
    | remove q frame now =>
      obtain ⟨k, rfl, -⟩ := hQ.head q frame now rest rfl
      cases h
      exact kept_remove hs hQ
    | settle seqs =>
      cases h
      exact kept_settled hs hQ
    | readPosition =>
      obtain ⟨hnone, ⟨⟩⟩ := ite_none_right_eq_some.mp h
      exact kept_readPosition hs hnone hQ
    | captureQueue =>
      cases h
      exact kept_captureQueue hS (TopicRun.persistent_of_fsync hfs) hs hcond hQ
    | _ => cases hi

end Code

/-! ## Recovery -/

variable {S : Serde Blob} {b₀ : TopicState}

theorem JobInv.recovered {s : JobState Blob} (hs : JobInv S b₀ s) (htaken : Taken b₀ s) {k : Nat}
    (hk : s.synced ≤ k) (now : Int) (deadLetterId : Nat) :
    ∃ b', (recovered S deadLetterId s k now).getTopicById b₀.topicId = some b' ∧
      ∀ q, Erased S b₀ s q → b'.index.live q = none := by
  -- the topic recovery starts from is one the snapshot captured
  obtain ⟨b, hb⟩ : ∃ b, (s.captured.map fun sb => restoreTopic S sb (sb.config S)).find?
      (fun b => decide (b.topicId = b₀.topicId)) = some b := by
    obtain ⟨sb, hsb, hid⟩ := htaken
    refine isSome_iff_exists.mp (find?_isSome.mpr ⟨_, mem_map_of_mem hsb, ?_⟩)
    exact decide_eq_true hid
  obtain ⟨sb, hsb, rfl⟩ := mem_map.mp (mem_of_find?_eq_some hb)
  have hid : sb.topicId = b₀.topicId := by
    have := find?_some hb
    exact of_decide_eq_true this
  obtain ⟨hpos, hname, hp⟩ := hs.captured sb hsb hid
  obtain ⟨p, hposition⟩ := ne_none_iff_exists'.mp hpos
  have hquiet : ∀ f ∈ (s.log.take k).drop p, Quiet b₀ f := fun f hf =>
    (hs.behind p hposition).2 f (((take_sublist k s.log).drop p).subset hf)
  obtain ⟨b', hb', hreplays⟩ := Engine.exists_replays (S := S) now
    (E := ⟨_, RouterGraph.empty, deadLetterId + 1⟩) hb fun f hf => by
      rw [show (restoreTopic S sb _).name = b₀.name from hname]
      exact (hquiet f hf).2
  refine ⟨b'.applyHeadWatermark, ?_, fun q hq => ?_⟩
  · unfold JobState.recovered
    rw [Engine.getTopicById_applyHeadWatermarks, hposition, getD_some, hb']
    rfl
  · refine (shrinks_applyHeadWatermark b').dead
      (hreplays.dead hid hp (fun f hf => (hquiet f hf).1) ?_)
    rcases hq.recovered p hposition with hcap | ⟨i, hle, hi, f, hf, hdel⟩
    · exact .inl (hcap sb hsb hid)
    refine .inr ⟨f, ?_, hdel⟩
    refine mem_iff_getElem?.mpr ⟨i - p, ?_⟩
    rw [getElem?_drop, Nat.add_sub_cancel' hle, getElem?_take_of_lt (hi.trans_le hk)]
    exact hf

theorem codeInv_body (s : JobState Blob) (t : Nat) (c : JobCall) : CodeInv S b₀ s t c.body := by
  cases c with
  | claim claimers leaseMs now =>
    refine ⟨⟨nofun, nofun, trivial⟩, nofun, fun j hj => ?_⟩
    cases mem_singleton.mp hj
    rfl
  | ack node seqs leaseIds now => exact ⟨⟨nofun, trivial⟩, nofun, nofun⟩
  | snapshot queueFirst now =>
    cases queueFirst with
    | true =>
      refine ⟨⟨nofun, nofun, nofun, fun o ho => ?_, nofun, trivial⟩, nofun, fun j hj => ?_⟩
      · cases mem_singleton.mp ho
        exact .inl (.inr mem_cons_self)
      · simp only [JobCall.body, if_true, cons_append, nil_append, tail_cons,
          mem_cons, not_mem_nil, or_false] at hj
        rcases hj with rfl | rfl | rfl | rfl <;> rfl
    | false =>
      refine ⟨⟨nofun, nofun, nofun, nofun, fun o ho => ?_, trivial⟩, nofun, fun j hj => ?_⟩
      · cases mem_singleton.mp ho
        exact .inl (.inl (.inr mem_cons_self))
      · simp only [JobCall.body, Bool.false_eq_true, if_false, cons_append, nil_append,
          tail_cons, mem_cons, not_mem_nil, or_false] at hj
        rcases hj with rfl | rfl | rfl | rfl <;> rfl

/-- **A durable ack survives a concurrent snapshot**, in every interleaving in which the topic is
captured with no removal outstanding whose frame lies before the recorded position: no job of an
ack that returned, and no job moved by a completed claim, is live after the recovery. -/
theorem settled_jobs_stay_gone (hS : S.RoundTrips) {resolve : Nat → Value × Option Value}
    {deadLetterId : Nat} {deadLetter : Option TopicState} {log : List (WalRecord Blob)}
    (hfs : b₀.config.durabilityClass = .fsync) (hname : b₀.config.deadLetter ≠ some b₀.name)
    (hid : deadLetterId ≠ b₀.topicId)
    (hdl : ∀ d ∈ deadLetter, d.topicId ≠ b₀.topicId ∧ d.name ≠ b₀.name)
    {as : List (ThreadAction JobCall Unit)} {s : Threads (JobState Blob) JobInstr}
    (halong : Along (step S resolve deadLetterId) (Threads.OnRun CapturesApplied)
      (start b₀ deadLetter log) as)
    (hrun : exec (step S resolve deadLetterId) (start b₀ deadLetter log) as = some s)
    (htaken : Taken b₀ s.shared) {k : Nat} (hk : s.shared.synced ≤ k) (now : Int) :
    ∃ b', (recovered S deadLetterId s.shared k now).getTopicById b₀.topicId = some b' ∧
      ∀ q ∈ s.shared.settled, b'.index.live q = none := by
  have hinit : Threads.Holds (JobInv S b₀) (CodeInv S b₀) (start b₀ deadLetter log) := by
    refine ⟨⟨⟨rfl, rfl, rfl, hdl, le_rfl⟩, nofun, nofun, nofun, nofun⟩, fun t => ?_⟩
    exact ⟨trivial, nofun, nofun⟩
  have hs := Threads.invariant (fun s t c _ => codeInv_body s t c) (keeps hS resolve hfs hname hid) hinit halong hrun
  obtain ⟨b', hb', hdead⟩ := hs.shared.recovered htaken hk now deadLetterId
  exact ⟨b', hb', fun q hq => hdead q (hs.shared.settled q hq)⟩

/-- A queue with two jobs, each of which is delivered once. -/
def twoJobs : TopicState :=
  (TopicState.new "jobs" 1
    { topicType := .queue, durable := true, maxDeliveries := 1, deadLetter := some "dead" }
    seqBaseDefault).append [.plain none, .plain none]

/-- `n` steps of thread `t`. -/
def steps (t n : Nat) : List (ThreadAction JobCall Unit) := List.replicate n (.run t ())

/-- Both jobs are claimed; the snapshot records its position; the first job is acknowledged, its
topic captured between the frame and the removal; the second one goes to the dead letters when
its lease has expired. -/
def ackedDuringSnapshot : List (ThreadAction JobCall Unit) :=
  .start 1 (.claim [⟨"worker", 2, none⟩] none 0) :: steps 1 5 ++
  .start 2 (.snapshot true 0) :: steps 2 2 ++
  .start 1 (.ack "worker" [1] [] 0) :: steps 1 3 ++ steps 2 3 ++ steps 1 3 ++
  .start 3 (.claim [⟨"worker", 2, none⟩] none 100000) :: steps 3 10

theorem settled_jobs_stay_gone_ackedDuringSnapshot :
    ∃ s, exec (step Serde.identity (fun _ => (.null, none)) 2) (start twoJobs none [])
        ackedDuringSnapshot = some s ∧ s.shared.settled = [1, 2] ∧
      ∃ b', (recovered Serde.identity 2 s.shared s.shared.synced 0).getTopicById 1 = some b' ∧
        ∀ q ∈ s.shared.settled, b'.index.live q = none := by
  have halong : Along (step Serde.identity (fun _ => (.null, none)) 2)
      (Threads.OnRun CapturesApplied) (start twoJobs none []) ackedDuringSnapshot := by
    decide +kernel
  refine ⟨_, rfl, by decide +kernel, ?_⟩
  exact settled_jobs_stay_gone Serde.identity_roundTrips rfl (by decide) (by decide)
    (fun d hd => (not_mem_none d hd).elim) halong rfl (by decide +kernel) le_rfl 0

/-- The frame of an ack is committed, the snapshot records its position and captures the topic,
and only then the job is removed and the ack returns. -/
def capturedBeforeRemoval : List (ThreadAction JobCall Unit) :=
  .start 1 (.claim [⟨"worker", 2, none⟩] none 0) :: steps 1 5 ++
  .start 1 (.ack "worker" [1] [] 0) :: steps 1 3 ++
  .start 2 (.snapshot true 0) :: steps 2 5 ++ steps 1 3

theorem acked_job_comes_back :
    ∃ s, exec (step Serde.identity (fun _ => (.null, none)) 2) (start twoJobs none [])
        capturedBeforeRemoval = some s ∧ s.shared.settled = [1] ∧
      s.code 1 = [] ∧ s.code 2 = [] ∧
      ∃ b', (recovered Serde.identity 2 s.shared s.shared.log.length 0).getTopicById 1 = some b' ∧
        (b'.index.live 1).isSome = true :=
  ⟨_, rfl, by decide +kernel, rfl, rfl, _, rfl, by decide +kernel⟩

end JobState

end Topics
