import Topics.AckedJobs
import Topics.Forwarding

/-!
# The calls on a router destination

A topic that routers feed from one source topic, with everything that runs on it: forwards,
direct writes, deletes, the calls of a queue, and snapshots.  The calls interleave step by step;
calls on the source topic are atomic.

The claims, acks and retention passes of the destination are those of `JobState`.
-/

namespace Topics

open Lib

variable {Blob : Type}

/-! ## State -/

structure Capture where
  /-- The WAL position it has recorded. -/
  position : Nat
  /-- The topics it has met so far, as `restore` rebuilds them. -/
  topics : List TopicState := []
  routers : RouterGraph := RouterGraph.empty
  /-- History: how many derived records the destination had been given when it was captured. -/
  derived : Nat := 0

namespace Capture

def Holds (c : Capture) (id : Nat) : Prop := ∃ b ∈ c.topics, b.topicId = id

instance (c : Capture) (id : Nat) : Decidable (c.Holds id) :=
  inferInstanceAs (Decidable (∃ b ∈ c.topics, b.topicId = id))

def add (c : Capture) (b : TopicState) : Capture := { c with topics := c.topics ++ [b] }

end Capture

structure DirectWrite where
  seq : Nat
  record : StoredRecord
  /-- The length of the log behind its batch. -/
  frames : Nat
  /-- How many derived records had been staged before it. -/
  derived : Nat

structure RouteState (Blob : Type) where
  /-- The destination, the topic of its dead letters, and the WAL shard. -/
  jobs : JobState Blob
  source : TopicState
  routers : RouterGraph
  /-- The publish tickets in line, oldest first: the thread, and its batch if it has one. -/
  gate : List (Nat × Option StagedAppend)
  /-- The thread that holds the destination's `append_lock` from step to step. -/
  appendLock : Option Nat
  /-- The routers under their advance lock; they hold `router_snapshot_lock` shared. -/
  advancing : List String
  /-- The snapshot that holds `router_snapshot_lock` exclusively. -/
  frozen : Option Nat
  /-- The snapshots of the run; the first one is the state the run starts from. -/
  captures : List Capture
  /-- History: how many derived records have been staged. -/
  derived : Nat
  /-- History: the direct writes that are staged, and those that have returned. -/
  written : List DirectWrite
  acked : List DirectWrite
  /-- History: the records that deletes and acks have removed. -/
  removed : List Nat

namespace RouteState

def dest (s : RouteState Blob) : TopicState := s.jobs.topic

def setDest (s : RouteState Blob) (b : TopicState) : RouteState Blob :=
  { s with jobs := { s.jobs with topic := b } }

/-- A call on the source topic, which logs to the same shard. -/
def onSource (s : RouteState Blob) (call : TopicRun Blob → TopicRun Blob) : RouteState Blob :=
  let r := call ⟨s.source, s.jobs.log, s.jobs.synced, [], [], []⟩
  { s with source := r.topic, jobs := { s.jobs with log := r.log, synced := r.synced } }

def onDest (s : RouteState Blob) (call : TopicRun Blob → TopicRun Blob) : RouteState Blob :=
  let r := call ⟨s.dest, s.jobs.log, s.jobs.synced, [], [], []⟩
  { s with jobs := { s.jobs with topic := r.topic, log := r.log, synced := r.synced } }

def log (s : RouteState Blob) (frames : List (WalRecord Blob)) : RouteState Blob :=
  { s with jobs := { s.jobs with log := s.jobs.log ++ frames } }

def sync (s : RouteState Blob) (frames : Nat) : RouteState Blob :=
  { s with jobs := { s.jobs with synced := max s.jobs.synced frames } }

/-- `stage_append` and the publish ticket, in one critical section. -/
def stage (s : RouteState Blob) (t : Nat) (records : List StoredRecord) : RouteState Blob :=
  { s.setDest (s.dest.stageAppend records).1 with
    gate := s.gate ++ [(t, some (s.dest.stageAppend records).2)] }

end RouteState

/-! ## Steps -/

inductive RoutedTopic where
  | source
  | dest
  | deadLetter

inductive RouteInstr where
  /-- A step of a queue call or of a retention pass. -/
  | queue (i : JobInstr)
  | writeSource (records : List RecordIn) (now : Int)
  -- `advance_router`
  | beginPass (name : String) (now : Int)
  | readSource (e : RouterEntry) (now : Int)
  | noteTrim
  | moveCursor (name : String) (cursor count : Nat)
  | readConfig (router : Router) (cursor srcHead : Nat) (now : Int)
  | readKeys (router : Router) (cursor srcHead : Nat) (config : TopicConfig) (now : Int)
  | visit (p : ForwardPass) (w : ForwardWalk) (seqs : List Nat)
  | stageDerived (p : ForwardPass) (w : ForwardWalk)
  | endPass (name : String) (cursor : Nat) (w : ForwardWalk)
  -- `write`
  | admitWrite (records : List RecordIn) (now : Int)
  | stageDirect (stored : List StoredRecord) (now : Int)
  | awaitWrite (writes : List DirectWrite) (frames : Nat) (g : StagedAppend) (now : Int)
  | reserveHead (g : StagedAppend) (now : Int)
  | ackWrites (writes : List DirectWrite)
  /-- The turn of an append at the publish gate. -/
  | publish (g : StagedAppend)
  -- `delete`
  | lockAppend
  | submitDelete (beforeSeq : Option Nat) (match_ : Option Filter) (now : Int)
  | awaitDelete (beforeSeq : Option Nat) (match_ : Option Filter) (bound frame : Nat) (now : Int)
  | applyDelete (beforeSeq : Option Nat) (match_ : Option Filter) (bound : Nat)
      (frame : Option Nat) (now : Int)
  -- `write_snapshot`; `i` is the snapshot's place in the list
  | readPosition (walk : List RoutedTopic) (now : Int)
  | freeze
  | captureSource (i : Nat) (now : Int)
  | captureDest (i : Nat)
  | captureDeadLetter (i : Nat) (now : Int)
  | captureRouters (i : Nat)

/-- The capture of one topic: retention, then the topic under its append lock. -/
def RoutedTopic.captureCode (i : Nat) (now : Int) : RoutedTopic → List RouteInstr
  | source => [.captureSource i now]
  | dest => [.queue (.retain now), .lockAppend, .captureDest i]
  | deadLetter => [.captureDeadLetter i now]

/-- The calls of the writers: the source is written, the destination is fed and written. -/
inductive WriteCall where
  | writeSource (records : List RecordIn) (now : Int)
  | forward (router : String) (now : Int)
  | write (records : List RecordIn) (now : Int)
  | snapshot (walk : List RoutedTopic) (now : Int)

/-- The code of a forward and of a snapshot starts with one step. -/
def WriteCall.body : WriteCall → List RouteInstr
  | .writeSource records now => [.writeSource records now]
  | .forward router now => [.beginPass router now]
  | .write records now => [.queue (.retain now), .admitWrite records now]
  | .snapshot walk now => [.queue (.barrier now), .readPosition walk now]

namespace RouteState

section Step

variable (S : Serde Blob) (resolve : Nat → Nat → Value × Option Value) (deadLetterId : Nat)

/-- The record of a removal, if the step is one: the seq of a record that has been assigned. -/
def removal (s : RouteState Blob) : JobInstr → List Nat
  | .remove q _ _ => if q < s.dest.index.tail then [q] else []
  | _ => []

def queueStep (s : RouteState Blob) (t : Nat) (i : JobInstr) :
    Option (Outcome (RouteState Blob) RouteInstr) :=
  (JobState.sem S (resolve s.dest.topicId) deadLetterId s.jobs t () i).map fun
    | .next jobs more =>
      .next { s with jobs := jobs, removed := s.removed ++ s.removal i } (more.map .queue)
    | .stop jobs => .stop { s with jobs := jobs }

def directWrites (s : RouteState Blob) (stored : List StoredRecord)
    (frames : List (WalRecord Blob)) : List DirectWrite :=
  List.zipWith (fun q r => ⟨q, r, s.jobs.log.length + frames.length, s.derived⟩)
    (s.dest.stageAppend stored).2.seqs stored

/-- One step of thread `t`.  No WAL operation fails. -/
def sem (s : RouteState Blob) (t : Nat) (_ : Unit) :
    RouteInstr → Option (Outcome (RouteState Blob) RouteInstr)
  | .queue i => s.queueStep S resolve deadLetterId t i
  | .writeSource records now =>
    if records ≠ [] ∧ 0 ≤ now ∧ now < 2 ^ 63 then
      some (.next (s.onSource fun r => r.write S records now) [])
    else none
  | .beginPass name now =>
    if s.frozen = none ∧ name ∉ s.advancing then
      match s.routers.find name with
      | none => some (.stop s)
      | some e => some (.next { s with advancing := name :: s.advancing } [.readSource e now])
    else none
  | .readSource e now =>
    let s := s.onSource fun r => r.retain now
    let name := e.router.name
    let n := Routed.trimmed s.source e.cursor
    some (.next s
      (if e.cursor ≥ s.source.headSeq then [.endPass name e.cursor {}]
      else
        (if n = 0 then []
          else List.replicate n .noteTrim ++ [.moveCursor name (e.cursor + n) n]) ++
        [.readConfig e.router (e.cursor + n) s.source.headSeq now]))
  | .noteTrim => some (.next (s.setDest s.dest.noteSourceTrim) [])
  | .moveCursor name cursor count =>
    some (.next { s with routers := s.routers.noteForwarded name cursor count } [])
  | .readConfig router cursor srcHead now =>
    let config := s.dest.config
    some (.next s
      ((if config.discard = .reject then [.queue (.retain now)] else []) ++
        [.readKeys router cursor srcHead config now]))
  | .readKeys router cursor srcHead config now =>
    let p : ForwardPass :=
      ⟨router, cursor, srcHead, config, Routed.existingKeys resolve router s.dest, now⟩
    some (.next s [.visit p {} p.seqs])
  | .visit p w seqs =>
    match seqs with
    | [] => some (.next s [.stageDerived p w])
    | seq :: seqs =>
      some (.next s [.visit p (p.visit S (resolve s.source.topicId) s.source s.dest w seq) seqs])
  | .stageDerived p w =>
    if w.toAppend.isEmpty then some (.next s [.endPass p.router.name p.cursor w])
    else if s.appendLock = none then
      -- no frame is logged for a derived record
      some (.next { s.stage t w.toAppend with derived := s.derived + w.toAppend.length }
        [.publish (s.dest.stageAppend w.toAppend).2, .queue (.retain p.now),
          .endPass p.router.name p.cursor w])
    else none
  | .endPass name cursor w =>
    some (.next
      { s with
        routers := if w.consumed > 0 then
            s.routers.noteForwarded name (cursor + w.consumed) w.forwarded
          else s.routers
        advancing := s.advancing.erase name } [])
  | .admitWrite records now =>
    let stored := records.map fun r => r.stored S now
    if records ≠ [] ∧ 0 ≤ now ∧ now < 2 ^ 63 then
      if s.dest.refuses stored then some (.stop s) else some (.next s [.stageDirect stored now])
    else none
  | .stageDirect stored now =>
    if s.appendLock = none then
      let cls := s.dest.config.durabilityClass
      let g := (s.dest.stageAppend stored).2
      let frames := if cls = .ephemeral then []
        else WritePath.appendFrames S s.dest.topicId now g stored
      let writes := s.directWrites stored frames
      let publish := [.publish g, .queue (.retain now), .ackWrites writes]
      some (.next { (s.stage t stored).log frames with written := s.written ++ writes }
        (match cls with
          | .fsync => [.awaitWrite writes (s.jobs.log.length + frames.length) g now]
          | .disk => .reserveHead g now :: publish
          | _ => publish))
    else none
  | .awaitWrite writes frames g now =>
    some (.next (s.sync frames) [.publish g, .queue (.retain now), .ackWrites writes])
  | .reserveHead g now =>
    if (s.gate.head?.map Prod.fst) = some t then
      some (.next (s.onDest fun r => r.ensureDiskHeadReserved g.publishHead now) [])
    else none
  | .ackWrites writes => some (.next { s with acked := s.acked ++ writes } [])
  | .publish g =>
    match s.gate with
    | (t', some g') :: rest =>
      if t' = t ∧ g' = g then
        some (.next { s.setDest (s.dest.publishStagedNoSeal g) with gate := rest } [])
      else none
    | _ => none
  | .lockAppend =>
    if s.appendLock = none then some (.next { s with appendLock := some t } []) else none
  | .submitDelete beforeSeq match_ now =>
    if s.appendLock = some t then
      let cls := s.dest.config.durabilityClass
      let bound := s.dest.headSeq + 1
      let frames := if cls = .ephemeral then []
        else [.delete s.dest.topicId beforeSeq match_ [] (some bound) now.toNat]
      some (.next
        { s.log frames with gate := s.gate ++ [(t, none)], appendLock := none }
        (if cls = .fsync then [.awaitDelete beforeSeq match_ bound s.jobs.log.length now]
        else [.applyDelete beforeSeq match_ bound none now]))
    else none
  | .awaitDelete beforeSeq match_ bound frame now =>
    some (.next (s.sync (frame + 1)) [.applyDelete beforeSeq match_ bound (some frame) now])
  | .applyDelete beforeSeq match_ bound _ now =>
    match s.gate with
    | (t', none) :: rest =>
      if t' = t then
        some (.next
          { s.setDest (s.dest.applyDelete beforeSeq match_ (some bound) now) with
            gate := rest
            removed := s.removed ++ (s.dest.enforceRetention now).deleteVictims
              (TopicState.deleteBound beforeSeq bound) match_ } [])
      else none
    | _ => none
  | .readPosition walk now =>
    let i := s.captures.length
    some (.next { s with captures := s.captures ++ [{ position := s.jobs.log.length }] }
      (.freeze :: walk.flatMap (RoutedTopic.captureCode i now) ++ [.captureRouters i]))
  | .freeze =>
    if s.frozen = none ∧ s.advancing = [] then some (.next { s with frozen := some t } []) else none
  | .captureSource i now =>
    let s := s.onSource fun r => r.retain now
    let b := snapshotTopic S (resolve s.source.topicId) s.source
    some (.next { s with captures := s.captures.modify i (·.add b) } [])
  | .captureDest i =>
    -- `quiesce_publishes`; a walk meets a topic once
    if s.appendLock = some t ∧ s.gate = [] ∧
        ∀ c ∈ s.captures[i]?, ¬ c.Holds s.dest.topicId then
      let b := snapshotTopic S (resolve s.dest.topicId) s.dest
      some (.next
        { s with
          captures := s.captures.modify i fun c => { c.add b with derived := s.derived }
          appendLock := none } [])
    else none
  | .captureDeadLetter i now =>
    some (.next
      (match s.jobs.deadLetter with
        | some d =>
          let b := snapshotTopic S (resolve d.topicId) (d.enforceRetention now)
          { s with
            jobs := s.jobs.onDeadLetter d fun r => r.retain now
            captures := s.captures.modify i (·.add b) }
        | none => s)
      [])
  | .captureRouters i =>
    some (.next
      { s with
        captures := s.captures.modify i fun c => { c with routers := s.routers }
        frozen := none } [])

def step {C : Type} (body : C → List RouteInstr) (s : Threads (RouteState Blob) RouteInstr)
    (a : ThreadAction C Unit) : Option (Threads (RouteState Blob) RouteInstr) :=
  Threads.step body (sem S resolve deadLetterId) s a

/-- The topics as they were created or as a recovery left them, before any of the calls. -/
def start (source dest : TopicState) (deadLetter : Option TopicState) (routers : RouterGraph) :
    Threads (RouteState Blob) RouteInstr :=
  ⟨{ jobs := ⟨dest, deadLetter, [], 0, none, [], [], []⟩
     source := source
     routers := routers
     gate := []
     appendLock := none
     advancing := []
     frozen := none
     captures := [{ position := 0, topics := [source, dest] ++ deadLetter.toList, routers := routers }]
     derived := 0
     written := []
     acked := []
     removed := [] }, fun _ => []⟩

/-- The registry after the replay of the first `k` frames on top of a snapshot. -/
def replayed (s : RouteState Blob) (c : Capture) (k : Nat) (now : Int) : Engine :=
  (((s.jobs.log.take k).drop c.position).foldl (Engine.replayFrame S now)
    ⟨c.topics, c.routers, deadLetterId + 1⟩).applyHeadWatermarks

/-- Recovery from a snapshot and the first `k` frames of the log: replay, then re-forwarding.
`clock` is read by the passes. -/
def recovered (s : RouteState Blob) (c : Capture) (k : Nat) (now : Int) (clock : Nat → Int) :
    Option Routed :=
  let E := s.replayed S deadLetterId c k now
  (E.getTopicById s.source.topicId).bind fun source =>
    (E.getTopicById s.dest.topicId).map fun dest =>
      Routed.reforward S resolve clock ⟨source, dest, E.routers⟩

end Step

end RouteState

end Topics
