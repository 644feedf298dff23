import Topics.Lib.Exec
import Topics.Lib.GroupCommit
import Topics.Replay

/-!
# The write path of one topic

`Engine::write` (`engine/mod.rs`) and everything that runs against it on the same topic: the
WAL writer (`storage/wal.rs`), retention passes, deletes, and crashes followed by recovery.
The locks and gates of the source become the guards of the actions:

A crash keeps a prefix of the log that contains everything synced; recovery replays it on
top of the topic's create frame, which was durable before the topic existed.
-/

namespace Topics

open Lib TopicState CommitLog List Option Engine

variable {Blob : Type}

/-- `DISK_HEAD_RESERVE_AHEAD`. -/
def diskHeadReserveAhead : Nat := 256

/-- The topic under test as `put_topic` created it. -/
structure TopicSpec where
  name : String
  topicId : Nat
  config : TopicConfig
  createTs : Nat

namespace TopicSpec

/-- The frame `put_topic` logged before the topic existed. -/
def createFrame (S : Serde Blob) (spec : TopicSpec) : WalRecord Blob :=
  .topicConfig spec.topicId ⟨spec.name, S.configToVec spec.config⟩ false spec.createTs

def fresh (spec : TopicSpec) : TopicState :=
  TopicState.new spec.name spec.topicId spec.config seqBaseDefault

/-- Recovery of the topic from the frames that survived. -/
def recover (S : Serde Blob) (spec : TopicSpec) (now : Int) (frames : List (WalRecord Blob)) :
    Option TopicState :=
  (Engine.recover S now (spec.createFrame S :: frames)).getTopicById spec.topicId

/-- Whether `apply_head_watermarks` has to pad the head of the replayed topic. -/
def pads (S : Serde Blob) (spec : TopicSpec) (now : Int) (frames : List (WalRecord Blob)) :
    Bool :=
  match ((spec.createFrame S :: frames).foldl (Engine.replayFrame S now) Engine.empty).getTopicById
      spec.topicId with
  | some b => decide (b.headSeq < b.reservedHead)
  | none => false

section Recovery

variable {S : Serde Blob} (hS : S.RoundTrips) (spec : TopicSpec) (now : Int)
  {frames : List (WalRecord Blob)} (hf : ∀ f ∈ frames, f.addresses spec.topicId = true)

include hS hf

theorem recover_eq :
    spec.recover S now frames = some (spec.fresh.replayAll S frames).applyHeadWatermark :=
  recover_singleTopic S hS now spec.name spec.topicId spec.config spec.createTs hf

theorem pads_eq :
    spec.pads S now frames =
      decide ((spec.fresh.replayAll S frames).headSeq
        < (spec.fresh.replayAll S frames).reservedHead) := by
  have hid : (spec.fresh.replayAll S frames).topicId = spec.topicId :=
    replayAll_topicId S spec.fresh frames
  unfold pads createFrame
  rw [foldl_replayFrame_create S hS now spec.name spec.topicId spec.config spec.createTs hf]
  change (match getTopicById ⟨[spec.fresh.replayAll S frames], _, _⟩ spec.topicId with
    | some b => decide (b.headSeq < b.reservedHead)
    | none => false) = _
  rw [getTopicById, find?_cons_of_pos]
  exact decide_eq_true hid

end Recovery

end TopicSpec

/-- A topic that has only its durability class configured. -/
def TopicSpec.ofClass (d : Durability) : TopicSpec := ⟨"jobs", 1, { durability := some d }, 0⟩

inductive TicketOp where
  | append (records : List StoredRecord) (staged : StagedAppend) (now : Int)
  | delete (beforeSeq : Option Nat) (match_ : Option Filter) (boundHead : Nat) (now : Int)

/-- A publish ticket with the commit token of its WAL frames. -/
structure Ticket where
  token : Nat
  op : TicketOp

/-- A durable retention pass waiting for its watermark. -/
structure RetentionPass where
  token : Nat
  plan : TopicState.RetentionAdvance
  head : Nat

/-- The topic, its WAL, and the calls in flight. -/
structure WritePath (Blob : Type) where
  topic : TopicState
  wal : CommitLog (WalRecord Blob)
  /-- The batch staged under `append_lock` and not yet enqueued. -/
  locked : Option (List StoredRecord × StagedAppend)
  /-- Publish tickets in order; the first one has its turn. -/
  tickets : List Ticket
  /-- Token and target of the head reservation in flight. -/
  reserving : Option (Nat × Nat)
  passes : List RetentionPass
  /-- History: every record published since the topic was created. -/
  published : List (Nat × StoredRecord)
  /-- History: the seqs published before the last crash. -/
  publishedBefore : List Nat
  /-- History: the seqs assigned since the last crash. -/
  assigned : List Nat
  /-- History: the head the last recovery ended with, and whether it had to pad. -/
  recoveredHead : Nat
  padded : Bool

inductive WriteAction where
  | stage (records : List StoredRecord)
  | enqueue (now : Int)
  | enqueueFail
  | submitDelete (beforeSeq : Option Nat) (match_ : Option Filter) (now : Int)
  | wal (a : LogAction)
  | publish
  | reserve (now : Int)
  | reserveRefused
  | reserved
  | retain (now : Int)
  | retained (i : Nat)
  /-- `delete_one_seq` of the queue ack path: the frame and the removal are separate steps. -/
  | logDeleteSeqs (seqs : List Nat) (now : Int)
  | deleteSeqs (seqs : List Nat)
  | crash (keep : Nat) (garbage : List Nat) (now : Int)

namespace WritePath

/-- The `Append` frame of one record of a batch. -/
def appendFrame (S : Serde Blob) (topicId : Nat) (now : Int) (seq : Nat) (r : StoredRecord) :
    WalRecord Blob :=
  .append topicId seq now.toNat r.node r.tag (encodeRecordPayload S r.data r.meta)

/-- The frames `wal_enqueue_batch` submits. -/
def appendFrames (S : Serde Blob) (topicId : Nat) (now : Int) (g : StagedAppend)
    (records : List StoredRecord) : List (WalRecord Blob) :=
  List.zipWith (appendFrame S topicId now) g.seqs records

def init (spec : TopicSpec) : WritePath Blob where
  topic := spec.fresh
  wal := CommitLog.reopen []
  locked := none
  tickets := []
  reserving := none
  passes := []
  published := []
  publishedBefore := []
  assigned := []
  recoveredHead := 0
  padded := false

section Step

variable (S : Serde Blob) (spec : TopicSpec)

def durable : Bool := spec.config.durabilityClass = .fsync

/-- The fast path of `ensure_disk_head_reserved` does not apply: a watermark is due before
the batch may be published. -/
def needsReservation (s : WritePath Blob) (g : StagedAppend) : Bool :=
  spec.config.durabilityClass = .disk ∧ ¬ g.publishHead < s.topic.reservedHead

def publishBatch (s : WritePath Blob) (rest : List Ticket) (topic : TopicState)
    (records : List StoredRecord) (g : StagedAppend) : WritePath Blob :=
  { s with
    topic := topic.publishStagedNoSeal g
    tickets := rest
    reserving := none
    published := s.published ++ g.seqs.zip records }

/-- Roll the batch of the first ticket back in place. -/
def rollbackBatch (s : WritePath Blob) (rest : List Ticket) (g : StagedAppend) :
    WritePath Blob :=
  { s with topic := s.topic.rollbackStagedBySeqs g, tickets := rest, reserving := none }

/-- The first ticket, if it is a committed append that still needs its reservation. -/
def awaitingReservation (s : WritePath Blob) :
    Option (List StoredRecord × StagedAppend × List Ticket) :=
  match s.tickets with
  | ⟨token, .append records g _⟩ :: rest =>
    if s.wal.outcome token = some true ∧ s.needsReservation spec g then some (records, g, rest)
    else none
  | _ => none

/-- The topic after a retention pass commits its plan. -/
def commitPass (topic : TopicState) (plan : TopicState.RetentionAdvance) (head : Nat) :
    TopicState :=
  (topic.commitFloors plan).reclaimFront head

/-- The turn of the first ticket.  A failed commit is rolled back in place, a committed append
is published unless its reservation is due, a committed delete is applied. -/
def takeTurn (s : WritePath Blob) : Option (WritePath Blob) :=
  match s.reserving, s.tickets with
  | none, ⟨token, op⟩ :: rest =>
    match s.wal.outcome token, op with
    | some true, .append records g _ =>
      if s.needsReservation spec g then none else some (s.publishBatch rest s.topic records g)
    | some false, .append _ g _ => some (s.rollbackBatch rest g)
    | some true, .delete beforeSeq match_ boundHead now =>
      some { s with
        topic := s.topic.applyDelete beforeSeq match_ (some boundHead) now
        tickets := rest }
    | some false, .delete .. => some { s with tickets := rest }
    | none, _ => none
  | _, _ => none

/-- `enforce_retention_durable`: a plan that a restart could not re-derive waits for its
watermark, any other one commits at once. -/
def retainNow (s : WritePath Blob) (now : Int) : WritePath Blob :=
  if s.topic.retentionIdle then s
  else
    let plan := s.topic.planRetention now
    if plan.floorAdvanced && plan.durableAdvance then
      { s with
        wal := s.wal.submit
          [.evictWatermark spec.topicId plan.evictFloor plan.expiryFloor
            (max plan.evictFloor plan.expiryFloor + 1) now.toNat] true
        passes := s.passes ++ [⟨s.wal.nextId, plan, s.topic.headSeq⟩] }
    else { s with topic := commitPass s.topic plan s.topic.headSeq }

/-- Recovery after a crash that left `frames`: everything in memory is gone. -/
def restart (s : WritePath Blob) (now : Int) (frames : List (WalRecord Blob))
    (topic : TopicState) : WritePath Blob where
  topic := topic
  wal := CommitLog.reopen frames
  locked := none
  tickets := []
  reserving := none
  passes := []
  published := s.published
  publishedBefore := s.published.map Prod.fst
  assigned := []
  recoveredHead := topic.headSeq
  padded := spec.pads S now frames

def step (s : WritePath Blob) : WriteAction → Option (WritePath Blob)
  | .stage records =>
    if s.locked.isNone ∧ records ≠ [] then
      let staged := s.topic.stageAppend records
      some { s with
        topic := staged.1
        locked := some (records, staged.2)
        assigned := s.assigned ++ staged.2.seqs }
    else none
  | .enqueue now =>
    match s.locked with
    | none => none
    | some (records, g) =>
      some { s with
        wal := s.wal.submit (appendFrames S spec.topicId now g records) (durable spec)
        locked := none
        tickets := s.tickets ++ [⟨s.wal.nextId, .append records g now⟩] }
  | .enqueueFail =>
    match s.locked with
    | none => none
    | some (_, g) => some { s with topic := s.topic.rollbackStaged g, locked := none }
  | .submitDelete beforeSeq match_ now =>
    if s.locked.isNone then
      some { s with
        wal := s.wal.submit
          [.delete spec.topicId beforeSeq match_ [] (some (s.topic.headSeq + 1)) now.toNat]
          (durable spec)
        tickets := s.tickets ++
          [⟨s.wal.nextId, .delete beforeSeq match_ (s.topic.headSeq + 1) now⟩] }
    else none
  | .wal a => (s.wal.step a).map fun w => { s with wal := w }
  | .publish => s.takeTurn spec
  | .reserve now =>
    match s.reserving, s.awaitingReservation spec with
    | none, some (_, g, _) =>
      let target := max g.publishHead s.topic.reservedHead + diskHeadReserveAhead
      some { s with
        wal := s.wal.submit [.headWatermark spec.topicId target now.toNat] true
        reserving := some (s.wal.nextId, target) }
    | _, _ => none
  | .reserveRefused =>
    match s.reserving, s.awaitingReservation spec with
    | none, some (_, g, rest) => some (s.rollbackBatch rest g)
    | _, _ => none
  | .reserved =>
    match s.reserving, s.awaitingReservation spec with
    | some (token, target), some (records, g, rest) =>
      match s.wal.outcome token with
      | none => none
      | some true => some (s.publishBatch rest (s.topic.setReservedHead target) records g)
      | some false => some (s.rollbackBatch rest g)
    | _, _ => none
  | .retain now => some (s.retainNow spec now)
  | .retained i =>
    match s.passes[i]? with
    | none => none
    | some pass =>
      match s.wal.outcome pass.token with
      | none => none
      | some true =>
        some { s with
          topic := commitPass s.topic pass.plan pass.head, passes := s.passes.eraseIdx i }
      | some false => some { s with passes := s.passes.eraseIdx i }
  | .logDeleteSeqs seqs now =>
    if seqs ≠ [] then
      some { s with
        wal := s.wal.submit [.delete spec.topicId none none seqs none now.toNat]
          (durable spec) }
    else none
  | .deleteSeqs seqs => some { s with topic := s.topic.deleteSeqs seqs }
  | .crash keep picks now =>
    if s.wal.synced ≤ keep ∧ keep ≤ s.wal.log.length then
      (spec.recover S now (s.wal.survivors keep picks)).map
        (s.restart S spec now (s.wal.survivors keep picks))
    else none

/-! ## What a step can do

Nine shapes cover the fourteen actions.  Every invariant below is proved by cases on them,
and `step` itself is unfolded only here. -/

inductive Move (s : WritePath Blob) : WriteAction → WritePath Blob → Prop where
  /-- A batch is staged under the append lock. -/
  | stage (records : List StoredRecord) (hl : s.locked = none) (hr : records ≠ []) :
      Move s (.stage records)
        { s with
          topic := (s.topic.stageAppend records).1
          locked := some (records, (s.topic.stageAppend records).2)
          assigned := s.assigned ++ (s.topic.stageAppend records).2.seqs }
  /-- The staged batch is enqueued and takes a ticket. -/
  | enqueue (now : Int) (records : List StoredRecord) (g : StagedAppend)
      (hl : s.locked = some (records, g)) :
      Move s (.enqueue now)
        { s with
          wal := s.wal.submit (appendFrames S spec.topicId now g records) (durable spec)
          locked := none
          tickets := s.tickets ++ [⟨s.wal.nextId, .append records g now⟩] }
  /-- The WAL refuses the staged batch, which is truncated away. -/
  | enqueueFail (records : List StoredRecord) (g : StagedAppend)
      (hl : s.locked = some (records, g)) :
      Move s .enqueueFail { s with topic := s.topic.rollbackStaged g, locked := none }
  /-- A `Delete` or `EvictWatermark` frame is submitted. -/
  | control (a : WriteAction) (f : WalRecord Blob) (d : Bool) (extra : List Ticket)
      (passes : List RetentionPass) (hf : f.addresses spec.topicId = true)
      (happ : f.appendSeq? = none)
      (hdel : (∃ i e x q t, f = .evictWatermark i e x q t) ∨
        (∃ b m n, a = .submitDelete b m n) ∨ ∃ l n, a = .logDeleteSeqs l n)
      (hextra : ∀ t ∈ extra, ∃ b m h n, t.op = .delete b m h n) :
      Move s a
        { s with wal := s.wal.submit [f] d, tickets := s.tickets ++ extra, passes := passes }
  /-- The first ticket asks for its head reservation. -/
  | reserve (now : Int) (token : Nat) (records : List StoredRecord) (g : StagedAppend)
      (n : Int) (rest : List Ticket) (hr : s.reserving = none)
      (ht : s.tickets = ⟨token, .append records g n⟩ :: rest) :
      Move s (.reserve now)
        { s with
          wal := s.wal.submit [.headWatermark spec.topicId
            (max g.publishHead s.topic.reservedHead + diskHeadReserveAhead) now.toNat] true
          reserving := some (s.wal.nextId,
            max g.publishHead s.topic.reservedHead + diskHeadReserveAhead) }
  /-- The WAL writer acts. -/
  | wal (a : LogAction) (w : CommitLog (WalRecord Blob)) (hw : s.wal.step a = some w) :
      Move s (.wal a) { s with wal := w }
  /-- The first ticket publishes: its commit succeeded, and on a `disk` topic its head lies
  below the reservation `topic` carries. -/
  | publish (a : WriteAction) (token : Nat) (records : List StoredRecord) (g : StagedAppend)
      (n : Int) (rest : List Ticket) (topic : TopicState)
      (ht : s.tickets = ⟨token, .append records g n⟩ :: rest)
      (ho : s.wal.outcome token = some true)
      (htopic : (topic = s.topic ∧ s.reserving = none ∧ s.needsReservation spec g = false) ∨
        ∃ token' target, s.reserving = some (token', target) ∧
          s.wal.outcome token' = some true ∧ topic = s.topic.setReservedHead target) :
      Move s a (s.publishBatch rest topic records g)
  /-- Slots are removed or floors raised, and possibly the first ticket is done. -/
  | remove (a : WriteAction) (topic : TopicState) (tickets : List Ticket)
      (reserving : Option (Nat × Nat)) (passes : List RetentionPass)
      (hsteady : TopicState.Steady s.topic topic)
      (ht : (tickets = s.tickets ∧ reserving = s.reserving) ∨
        (∃ t, s.tickets = t :: tickets) ∧ reserving = none) :
      Move s a
        { s with topic := topic, tickets := tickets, reserving := reserving, passes := passes }
  /-- A crash and the recovery from what survived. -/
  | crash (keep : Nat) (picks : List Nat) (now : Int) (topic : TopicState)
      (hk : s.wal.synced ≤ keep) (hk' : keep ≤ s.wal.log.length)
      (hrec : spec.recover S now (s.wal.survivors keep picks) = some topic) :
      Move s (.crash keep picks now)
        (s.restart S spec now (s.wal.survivors keep picks) topic)

theorem steady_commitPass (topic : TopicState) (plan : TopicState.RetentionAdvance)
    (head : Nat) : TopicState.Steady topic (commitPass topic plan head) :=
  (steady_commitFloors topic plan).trans (steady_reclaimFront _ _)

variable {S spec}

variable {s s' : WritePath Blob}

theorem awaitingReservation_eq_some {records : List StoredRecord} {g : StagedAppend}
    {rest : List Ticket} (h : s.awaitingReservation spec = some (records, g, rest)) :
    ∃ token n, s.tickets = ⟨token, .append records g n⟩ :: rest ∧
      s.wal.outcome token = some true := by
  unfold awaitingReservation at h
  split at h
  · rename_i token records' g' n rest' ht
    split at h
    · rename_i hg
      cases h
      exact ⟨token, n, ht, hg.1⟩
    · cases h
  · cases h

private theorem move_of_takeTurn (h : s.takeTurn spec = some s') :
    Move S spec s .publish s' := by
  unfold takeTurn at h
  split at h
  · rename_i token op rest hr ht
    split at h
    · rename_i records g n ho
      obtain ⟨hn, ⟨⟩⟩ := ite_none_left_eq_some.mp h
      exact Move.publish .publish token records g n rest s.topic ht ho
        (Or.inl ⟨rfl, hr, by simpa using hn⟩)
    · rename_i g n ho
      cases h
      exact Move.remove .publish _ rest none s.passes
        (steady_rollbackStagedBySeqs _ _) (Or.inr ⟨⟨_, ht⟩, rfl⟩)
    · cases h
      exact Move.remove .publish _ rest s.reserving s.passes
        (steady_applyDelete s.topic _ _ _ _) (Or.inr ⟨⟨_, ht⟩, hr⟩)
    · cases h
      exact Move.remove .publish s.topic rest s.reserving s.passes
        (TopicState.Steady.refl s.topic) (Or.inr ⟨⟨_, ht⟩, hr⟩)
    · cases h
  · cases h

private theorem move_of_retainNow (s : WritePath Blob) (now : Int) :
    Move S spec s (.retain now) (s.retainNow spec now) := by
  unfold retainNow
  split
  · exact Move.remove (.retain now) s.topic s.tickets s.reserving s.passes
      (TopicState.Steady.refl s.topic) (Or.inl ⟨rfl, rfl⟩)
  · simp only
    split
    · have h : Move S spec s (.retain now) _ := Move.control (.retain now)
        (.evictWatermark spec.topicId (s.topic.planRetention now).evictFloor
          (s.topic.planRetention now).expiryFloor
          (max (s.topic.planRetention now).evictFloor
            (s.topic.planRetention now).expiryFloor + 1) now.toNat)
        true [] (s.passes ++ [⟨s.wal.nextId, s.topic.planRetention now, s.topic.headSeq⟩])
        (beq_self_eq_true spec.topicId) rfl (Or.inl ⟨_, _, _, _, _, rfl⟩)
        nofun
      rw [append_nil] at h
      exact h
    · exact Move.remove (.retain now) _ s.tickets s.reserving s.passes
        (steady_commitPass _ _ _) (Or.inl ⟨rfl, rfl⟩)

private theorem move_of_retained {i : Nat} (h : step S spec s (.retained i) = some s') :
    Move S spec s (.retained i) s' := by
  simp only [step] at h
  split at h
  · cases h
  · rename_i pass hp
    split at h
    · cases h
    · cases h
      exact Move.remove (.retained i) _ s.tickets s.reserving _ (steady_commitPass _ _ _)
        (Or.inl ⟨rfl, rfl⟩)
    · cases h
      exact Move.remove (.retained i) s.topic s.tickets s.reserving _
        (TopicState.Steady.refl s.topic) (Or.inl ⟨rfl, rfl⟩)

private theorem move_of_reserve {now : Int} (h : step S spec s (.reserve now) = some s') :
    Move S spec s (.reserve now) s' := by
  simp only [step] at h
  split at h
  · rename_i x g rest hr ha
    cases h
    obtain ⟨token, n, ht, ho⟩ := awaitingReservation_eq_some ha
    exact Move.reserve now token x g n rest hr ht
  · cases h

private theorem move_of_reserveRefused (h : step S spec s .reserveRefused = some s') :
    Move S spec s .reserveRefused s' := by
  simp only [step] at h
  split at h
  · rename_i x g rest hr ha
    cases h
    obtain ⟨token, n, ht, ho⟩ := awaitingReservation_eq_some ha
    exact Move.remove .reserveRefused _ rest none s.passes
      (steady_rollbackStagedBySeqs _ _) (Or.inr ⟨⟨_, ht⟩, rfl⟩)
  · cases h

private theorem move_of_reserved (h : step S spec s .reserved = some s') :
    Move S spec s .reserved s' := by
  simp only [step] at h
  split at h
  · rename_i token target records g rest hr ha
    obtain ⟨token', n, ht, ho⟩ := awaitingReservation_eq_some ha
    split at h
    · cases h
    · rename_i hres
      cases h
      exact Move.publish .reserved token' records g n rest _ ht ho
        (Or.inr ⟨token, target, hr, hres, rfl⟩)
    · cases h
      exact Move.remove .reserved _ rest none s.passes
        (steady_rollbackStagedBySeqs _ _) (Or.inr ⟨⟨_, ht⟩, rfl⟩)
  · cases h

/-- **Inversion of `step`.** -/
theorem move_of_step {a : WriteAction} (h : step S spec s a = some s') : Move S spec s a s' := by
  cases a with
  | stage records =>
    obtain ⟨hg, ⟨⟩⟩ := ite_none_right_eq_some.mp h
    exact Move.stage records (isNone_iff_eq_none.mp hg.1) hg.2
  | enqueue now =>
    simp only [step] at h
    split at h
    · cases h
    · rename_i records g hl
      cases h
      exact Move.enqueue now records g hl
  | enqueueFail =>
    simp only [step] at h
    split at h
    · cases h
    · rename_i records g hl
      cases h
      exact Move.enqueueFail records g hl
  | submitDelete beforeSeq match_ now =>
    obtain ⟨-, ⟨⟩⟩ := ite_none_right_eq_some.mp h
    exact Move.control (.submitDelete beforeSeq match_ now) _ _ _ s.passes
      (beq_self_eq_true spec.topicId) rfl (Or.inr (Or.inl ⟨_, _, _, rfl⟩))
      (fun t ht => by rw [mem_singleton.mp ht]; exact ⟨_, _, _, _, rfl⟩)
  | wal a =>
    obtain ⟨w, hw, rfl⟩ := map_eq_some_iff.mp h
    exact Move.wal a w hw
  | publish => exact move_of_takeTurn h
  | reserve now => exact move_of_reserve h
  | reserveRefused => exact move_of_reserveRefused h
  | reserved => exact move_of_reserved h
  | retain now =>
    cases h
    exact move_of_retainNow s now
  | retained i => exact move_of_retained h
  | logDeleteSeqs seqs now =>
    obtain ⟨-, ⟨⟩⟩ := ite_none_right_eq_some.mp h
    have hm : Move S spec s (.logDeleteSeqs seqs now) _ := Move.control (.logDeleteSeqs seqs now)
      (.delete spec.topicId none none seqs none now.toNat) (durable spec) [] s.passes
      (beq_self_eq_true spec.topicId) rfl (Or.inr (Or.inr ⟨_, _, rfl⟩))
      nofun
    rw [append_nil] at hm
    exact hm
  | deleteSeqs seqs =>
    cases h
    exact Move.remove (.deleteSeqs seqs) _ s.tickets s.reserving s.passes
      (steady_deleteSeqs s.topic seqs) (Or.inl ⟨rfl, rfl⟩)
  | crash keep picks now =>
    obtain ⟨hk, h⟩ := ite_none_right_eq_some.mp h
    obtain ⟨topic, hrec, rfl⟩ := map_eq_some_iff.mp h
    exact Move.crash keep picks now topic hk.1 hk.2 hrec

end Step

/-! ## The shared invariant -/

/-- What holds in every reachable state, whatever fails: the log is well-formed and holds
frames of this topic only, every batch in flight is known to it, and the staged batch sits at
the back of the deque. -/
structure Base (S : Serde Blob) (spec : TopicSpec) (s : WritePath Blob) : Prop where
  wf : s.wal.WF
  addressed : s.wal.AllFrames fun f => f.addresses spec.topicId = true
  tickets : ∀ t ∈ s.tickets, ∀ records g now, t.op = .append records g now →
    records.length = g.count ∧
      (⟨t.token, appendFrames S spec.topicId now g records, durable spec⟩ :
        Submission (WalRecord Blob)) ∈ s.wal.submissions
  locked : ∀ records g, s.locked = some (records, g) →
    records.length = g.count ∧ 0 < g.count ∧ g.start ≤ s.topic.index.baseSeq + g.preLen ∧
      g.start + g.count = s.topic.index.tail
  reserving : ∀ token target, s.reserving = some (token, target) →
    (∃ ts, (⟨token, [.headWatermark spec.topicId target ts], true⟩ :
      Submission (WalRecord Blob)) ∈ s.wal.submissions) ∧
    ∃ t records g now rest, s.tickets = ⟨t, .append records g now⟩ :: rest ∧
      g.publishHead ≤ target

variable {S : Serde Blob} {spec : TopicSpec}

theorem Base.init : Base S spec (init spec) where
  wf := CommitLog.WF.reopen []
  addressed := CommitLog.AllFrames.reopen nofun
  tickets _ h := by cases h
  locked _ _ h := by cases h
  reserving _ _ h := by cases h

theorem addresses_appendFrames {id : Nat} (now : Int) (g : StagedAppend)
    (records : List StoredRecord) :
    ∀ f ∈ appendFrames S id now g records, f.addresses id = true := by
  intro f hf
  obtain ⟨i, hi, rfl⟩ := mem_iff_getElem.mp hf
  simp [appendFrames, appendFrame, WalRecord.addresses]

theorem Base.step {s s' : WritePath Blob} (h : Base S spec s) {a : WriteAction}
    (ha : step S spec s a = some s') : Base S spec s' := by
  have hkeep : ∀ (w : CommitLog (WalRecord Blob)), (∀ x ∈ s.wal.submissions, x ∈ w.submissions) →
      ∀ t ∈ s.tickets, ∀ records g now, t.op = .append records g now →
        records.length = g.count ∧
          (⟨t.token, appendFrames S spec.topicId now g records, durable spec⟩ :
            Submission (WalRecord Blob)) ∈ w.submissions := by
    intro w hw t ht records g now hop
    obtain ⟨hlen, hmem⟩ := h.tickets t ht records g now hop
    exact ⟨hlen, hw _ hmem⟩
  -- a reservation in flight survives further submissions and later tickets
  have hres : ∀ (w : CommitLog (WalRecord Blob)) (extra : List Ticket),
      (∀ x ∈ s.wal.submissions, x ∈ w.submissions) →
      ∀ token target, s.reserving = some (token, target) →
        (∃ ts, (⟨token, [.headWatermark spec.topicId target ts], true⟩ :
          Submission (WalRecord Blob)) ∈ w.submissions) ∧
        ∃ t records g now rest, s.tickets ++ extra = ⟨t, .append records g now⟩ :: rest ∧
          g.publishHead ≤ target := by
    intro w extra hw token target hr
    obtain ⟨⟨ts, hts⟩, t, r, g', n, rest, ht, hle⟩ := h.reserving token target hr
    exact ⟨⟨ts, hw _ hts⟩, t, r, g', n, rest ++ extra, by rw [ht]; rfl, hle⟩
  cases move_of_step ha with
  | stage records hl hr =>
    refine { h with locked := ?_ }
    intro records' g hg
    cases hg
    refine ⟨rfl, length_pos_iff.mpr hr, ?_, ?_⟩
    · exact le_of_eq (congrArg (· + _) (TopicIndex.pushAll_baseSeq _ _).symm)
    · exact (TopicIndex.tail_pushAll _ _).symm
  | enqueue now records g hl =>
    obtain ⟨hlen, hpos, _, _⟩ := h.locked records g hl
    refine ⟨h.wf.submit _ _, h.addressed.submit (addresses_appendFrames now g records) _, ?_,
      fun _ _ h => (by cases h), ?_⟩
    · intro t ht records' g' now' hop
      rcases mem_append.mp ht with ht | ht
      · exact hkeep _ (fun x hx => mem_submissions_submit hx _ _) t ht _ _ _ hop
      · rw [mem_singleton.mp ht] at hop ⊢
        cases hop
        exact ⟨hlen, submitted_mem_submissions _ _ _⟩
    · exact hres _ _ fun x hx => mem_submissions_submit hx _ _
  | enqueueFail records g hl =>
    exact { h with locked := fun _ _ h => (by cases h) }
  | control _ f d extra passes hf happ hdel hextra =>
    refine ⟨h.wf.submit _ _, h.addressed.submit ?_ _, ?_, h.locked, ?_⟩
    · intro f' hf'
      rw [mem_singleton.mp hf']
      exact hf
    · intro t ht records g now hop
      rcases mem_append.mp ht with ht | ht
      · exact hkeep _ (fun x hx => mem_submissions_submit hx _ _) t ht _ _ _ hop
      · obtain ⟨_, _, _, _, hd⟩ := hextra t ht
        rw [hd] at hop
        cases hop
    · exact hres _ _ fun x hx => mem_submissions_submit hx _ _
  | reserve now token records g n rest hr ht =>
    refine ⟨h.wf.submit _ _, h.addressed.submit ?_ _, ?_, h.locked, ?_⟩
    · intro f' hf'
      rw [mem_singleton.mp hf']
      exact beq_self_eq_true spec.topicId
    · exact hkeep _ fun x hx => mem_submissions_submit hx _ _
    · intro token' target hres'
      cases hres'
      refine ⟨⟨_, submitted_mem_submissions _ _ _⟩, token, records, g, n, rest, ht, ?_⟩
      exact (le_max_left _ _).trans (Nat.le_add_right _ _)
  | wal a w hw =>
    have hmem : ∀ x ∈ s.wal.submissions, x ∈ w.submissions := fun x hx =>
      (perm_submissions (effect_of_step hw).1).mem_iff.mpr hx
    refine ⟨h.wf.step hw, h.addressed.step hw, hkeep w hmem, h.locked, ?_⟩
    have := hres w [] hmem
    rwa [append_nil] at this
  | publish a token records g n rest topic ht ho htopic =>
    have hix : (topic.publishStagedNoSeal g).index = s.topic.index := by
      have htop : topic.index = s.topic.index := by
        rcases htopic with ⟨rfl, _⟩ | ⟨_, _, _, _, rfl⟩
        all_goals rfl
      unfold publishStagedNoSeal
      split <;> exact htop
    refine ⟨h.wf, h.addressed, ?_, ?_, fun _ _ h => (by cases h)⟩
    · intro t htm
      exact h.tickets t (by rw [ht]; exact mem_cons_of_mem _ htm)
    · intro records' g' hl
      have := h.locked records' g' hl
      simp only [publishBatch, hix]
      exact this
  | remove a topic tickets reserving passes hsteady htick =>
    refine ⟨h.wf, h.addressed, ?_, ?_, ?_⟩
    · intro t htm
      rcases htick with ⟨heq, _⟩ | ⟨⟨t', heq⟩, _⟩
      · exact h.tickets t (by rw [← heq]; exact htm)
      · exact h.tickets t (by rw [heq]; exact mem_cons_of_mem _ htm)
    · intro records g hl
      obtain ⟨hlen, hpos, hbase, htail⟩ := h.locked records g hl
      refine ⟨hlen, hpos, ?_, ?_⟩
      · exact hbase.trans (Nat.add_le_add_right hsteady.base _)
      · rw [htail]
        exact hsteady.tail.symm
    · intro token target hr
      rcases htick with ⟨heq, hr'⟩ | ⟨_, hnone⟩
      · rw [heq]
        exact h.reserving token target (hr' ▸ hr)
      · rw [hnone] at hr
        cases hr
  | crash keep picks now topic hk hk' hrec =>
    exact ⟨CommitLog.WF.reopen _,
      CommitLog.AllFrames.reopen (h.addressed.survivors keep picks),
      fun _ h => (by cases h), fun _ _ h => (by cases h), fun _ _ h => (by cases h)⟩

/-! ## Runs on concrete topics -/

/-- One acknowledged single-record write of a `disk` topic whose reservation ran out. -/
def diskWrite : List WriteAction :=
  [.stage [.plain none], .enqueue 0, .wal (.write 1), .wal .finish,
    .reserve 0, .wal (.write 1), .wal .finish, .reserved]

end WritePath

end Topics
