import Topics.TopicState
import Topics.Router

/-!
# The engine registry and WAL replay

The topic and router registries of `Engine` (`engine/mod.rs`) as far as recovery rebuilds
them, and `replay_frame` (`engine/recovery.rs`), which applies one WAL record to them.
-/

namespace Topics

variable {Blob : Type} (S : Serde Blob)

/-! ## Replay into one topic -/

/-- `apply_append_for_recovery`'s record: payload decoded, size recomputed, hop count zero. -/
def replayRecord (ts : Nat) (node tag : Option String) (data : Blob) : StoredRecord :=
  let payload := decodeRecordPayload S data
  { ts := asI64 ts
    node := node
    tag := tag
    data := payload.1
    «meta» := payload.2
    bytes := payloadBytes S payload.1 payload.2
    deleted := false
    payloadResident := true
    hops := 0 }

/-- The arms of `replay_frame` that address a topic by id.  An `Append` is admitted only at
`head + 1`; a lower seq is an overlap, a higher one is treated as torn. -/
def TopicState.replay (b : TopicState) : WalRecord Blob → TopicState
  | .append _ seq ts node tag data =>
    if b.config.usesPersistentRecordStore then
      if seq = b.headSeq + 1 then b.append [replayRecord S ts node tag data] else b
    else b
  | .delete _ beforeSeq match_ seqs boundHead ts =>
    if b.config.usesPersistentRecordStore then
      if seqs.isEmpty then b.applyDelete beforeSeq match_ boundHead (asI64 ts)
      else b.deleteSeqs seqs
    else b
  | .evictWatermark _ evictFloor expiryFloor _ _ =>
    { b with
      floors := { b.floors with
        evictFloor := max b.floors.evictFloor evictFloor
        expiryFloor := max b.floors.expiryFloor expiryFloor } }
  | .lease _ seq event node leaseId deadline deliveries _ =>
    if b.config.usesPersistentRecordStore then
      { b with
        queue := b.queue.map fun q =>
          q.applyLeaseEvent event seq node leaseId (asI64 deadline) deliveries }
    else b
  | .headWatermark _ headSeq _ =>
    if b.config.usesPersistentRecordStore then b.setReservedHead headSeq else b
  | .topicConfig .. => b
  | .routerCreate .. => b
  | .routerDelete .. => b
  | .checkpointMark .. => b

/-- One topic of `apply_head_watermarks`. -/
def TopicState.applyHeadWatermark (b : TopicState) : TopicState :=
  if b.reservedHead > b.headSeq then b.restoreHeadWatermark b.reservedHead else b

/-! ## The registry -/

/-- The registries of `Engine`.  Resource limits and gauges are left out: recovery bypasses
them. -/
structure Engine where
  topics : List TopicState
  routers : RouterGraph
  nextTopicId : Nat

/-- Update the first element that satisfies `p`. -/
def modifyFirst {α : Type} (p : α → Bool) (f : α → α) : List α → List α
  | [] => []
  | x :: xs => if p x then f x :: xs else x :: modifyFirst p f xs

namespace Engine

def empty : Engine := ⟨[], RouterGraph.empty, 1⟩

def getTopic (E : Engine) (name : String) : Option TopicState :=
  E.topics.find? fun b => b.name = name

def getTopicById (E : Engine) (topicId : Nat) : Option TopicState :=
  E.topics.find? fun b => b.topicId = topicId

/-- Update the topic `get_topic_by_id` finds. -/
def modifyById (E : Engine) (topicId : Nat) (f : TopicState → TopicState) : Engine :=
  { E with topics := modifyFirst (fun b => b.topicId = topicId) f E.topics }

def modifyByName (E : Engine) (name : String) (f : TopicState → TopicState) : Engine :=
  { E with topics := modifyFirst (fun b => b.name = name) f E.topics }

/-- `apply_put_topic` with a forced id: replace the config of an existing name in place,
keeping its id, or create the topic. -/
def applyPutTopic (E : Engine) (now : Int) (name : String) (config : TopicConfig)
    (topicId : Nat) : Engine :=
  if (E.getTopic name).isSome then
    { E with
      topics := modifyFirst (fun b => b.name = name)
        (fun b => { b with config := config }.enforceRetention now) E.topics }
  else
    { E with
      topics := E.topics ++ [TopicState.new name topicId config seqBaseDefault]
      nextTopicId := max E.nextTopicId (topicId + 1) }

/-- `remove_topic_for_recovery`: by name, with the router cascade. -/
def removeTopic (E : Engine) (name : String) : Engine :=
  { E with
    topics := E.topics.filter fun b => b.name ≠ name
    routers := E.routers.removeTouchingTopic name }

/-- The name a replayed `Append` gives to a topic it cannot find. -/
def syntheticName (topicId : Nat) : String := "topic-" ++ toString topicId

/-- `replay_frame`.  `now` is the clock of the recovering process. -/
def replayFrame (now : Int) (E : Engine) : WalRecord Blob → Engine
  | .topicConfig topicId op tombstone _ =>
    if tombstone then E.removeTopic op.name
    else E.applyPutTopic now op.name ((S.configFromSlice op.config).getD {}) topicId
  | .routerCreate op _ => { E with routers := E.routers.applyCreate op }
  | .routerDelete name _ => { E with routers := E.routers.remove name }
  | .checkpointMark .. => E
  | .append topicId seq ts node tag data =>
    -- a topic whose create frame is missing is materialized with defaults
    let E := if (E.getTopicById topicId).isSome then E
      else E.applyPutTopic now (syntheticName topicId) {} topicId
    E.modifyById topicId fun b => b.replay S (.append topicId seq ts node tag data)
  | .delete topicId beforeSeq match_ seqs boundHead ts =>
    E.modifyById topicId fun b =>
      b.replay S (.delete topicId beforeSeq match_ seqs boundHead ts)
  | .evictWatermark topicId evictFloor expiryFloor earliestSeq ts =>
    E.modifyById topicId fun b =>
      b.replay S (.evictWatermark topicId evictFloor expiryFloor earliestSeq ts)
  | .lease topicId seq event node leaseId deadline deliveries ts =>
    E.modifyById topicId fun b =>
      b.replay S (.lease topicId seq event node leaseId deadline deliveries ts)
  | .headWatermark topicId headSeq ts =>
    E.modifyById topicId fun b => b.replay S (.headWatermark topicId headSeq ts)

def applyHeadWatermarks (E : Engine) : Engine :=
  { E with topics := E.topics.map TopicState.applyHeadWatermark }

/-- Recovery without a snapshot: replay every frame in order, then reconcile the heads. -/
def recover (now : Int) (frames : List (WalRecord Blob)) : Engine :=
  (frames.foldl (replayFrame S now) empty).applyHeadWatermarks

end Engine

end Topics
