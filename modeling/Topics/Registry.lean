import Topics.Lib.Exec
import Topics.RouterReplay
import Topics.ShardedLog
import Topics.WritePath

/-!
# The registry and its log

The calls that change the topic and router registries (`put_topic`, `delete_topic`,
`put_router`, `delete_router`), `fsync` writes, and the passes that run between them
(retention, router forwarding), one after another, each with the frames it logs through
`ShardedWal`.
-/

namespace Topics

open Lib

variable {Blob : Type}

/-! ## Passes -/

def Engine.feeds (E : Engine) (dest : String) : Bool :=
  E.routers.entries.any fun e => e.router.dest = dest

/-- The parts of `advance_router` and of a retention pass.  What a router forwards is left
open: any records, any trimmed range and any progress. -/
inductive Pass where
  | retain (name : String) (now : Int)
  | trim (dest : String)
  | derive (dest : String) (records : List StoredRecord)
  | note (router : String) (cursor count : Nat)

/-- One pass.  A router writes only into its own dest. -/
def Engine.pass (E : Engine) : Pass → Engine
  | .retain name now => E.modifyByName name fun b => b.enforceRetention now
  | .trim dest => if E.feeds dest then E.modifyByName dest TopicState.noteSourceTrim else E
  | .derive dest records =>
    if E.feeds dest then E.modifyByName dest fun b => b.append records else E
  | .note router cursor count =>
    { E with routers := E.routers.noteForwarded router cursor count }

/-! ## Calls -/

/-- One record of a `WriteRequest`. -/
structure RecordIn where
  node : Option String
  tag : Option String
  data : Value
  «meta» : Option Value

/-- `build_stored`. -/
def RecordIn.stored (S : Serde Blob) (r : RecordIn) (now : Int) : StoredRecord where
  ts := now
  node := r.node
  tag := r.tag
  data := r.data
  «meta» := r.meta
  bytes := payloadBytes S r.data r.meta
  deleted := false
  payloadResident := true
  hops := 0

/-- The engine, the frames it logged, and what the results are about. -/
structure Registry (Blob : Type) where
  engine : Engine
  log : List (LogEntry Blob)
  /-- History: every acknowledged record with the id of its topic and its seq. -/
  acked : List (Nat × Nat × StoredRecord)
  /-- History: the ids of the topics that ever had a retention limit. -/
  limited : List Nat
  /-- History: the ids of the topics a router has written into. -/
  derived : List Nat

inductive RegistryAction where
  | putTopic (name : String) (config : TopicConfig) (now : Int)
  | deleteTopic (name : String) (now : Int)
  | putRouter (r : Router) (now : Int)
  | deleteRouter (name : String) (now : Int)
  | write (name : String) (records : List RecordIn) (now : Int)
  | pass (p : Pass)

/-- Whether a config can make records disappear by itself. -/
def TopicConfig.limits (c : TopicConfig) : Bool :=
  c.ttlMs ≠ 0 ∨ c.capRecords ≠ 0 ∨ c.capBytes ≠ 0

namespace Registry

def init : Registry Blob := ⟨Engine.empty, [], [], [], []⟩

section Step

variable (S : Serde Blob) (hash : Nat → Nat) (n : Nat) (noBytes : Blob)

/-- The watermark `enforce_retention_durable` logs, if any. -/
def retainFrames (b : TopicState) (now : Int) : List (WalRecord Blob) :=
  if b.config.usesPersistentRecordStore ∧ b.retentionIdle = false ∧
      (b.planRetention now).floorAdvanced ∧ (b.planRetention now).durableAdvance then
    [.evictWatermark b.topicId (b.planRetention now).evictFloor (b.planRetention now).expiryFloor
      (max (b.planRetention now).evictFloor (b.planRetention now).expiryFloor + 1) now.toNat]
  else []

/-- `put_topic` once its checks have passed.  An existing name keeps its id. -/
def register (s : Registry Blob) (name : String) (config : TopicConfig) (now : Int) :
    Registry Blob :=
  let old := s.engine.getTopic name
  let topicId := (old.map (·.topicId)).getD s.engine.nextTopicId
  let frame := .topicConfig topicId ⟨name, S.configToVec config⟩ false now.toNat
  let swept := (old.map fun b => retainFrames { b with config := config } now).getD []
  { s with
    engine := s.engine.applyPutTopic now name config topicId
    log := s.log ++ (frame :: swept).map (shardEntry hash n (some name))
    limited := if config.limits then topicId :: s.limited else s.limited }

/-- `put_topic`.  The type of a topic is immutable. -/
def putTopic (s : Registry Blob) (name : String) (config : TopicConfig) (now : Int) :
    Option (Registry Blob) :=
  if (s.engine.getTopic name).any fun b => b.config.topicType ≠ config.topicType then none
  else some (s.register S hash n name config now)

/-- `delete_topic`: the tombstone, one `RouterDelete` for every router of the cascade, then
the removal. -/
def deleteTopic (s : Registry Blob) (name : String) (now : Int) : Option (Registry Blob) :=
  match s.engine.getTopic name with
  | none => none
  | some b =>
    some { s with
      engine := s.engine.removeTopic name
      log := s.log ++ shardEntry hash n (some name) (.topicConfig b.topicId ⟨name, noBytes⟩ true now.toNat)
        :: (s.engine.routers.routersTouchingTopic name).map fun r =>
          shardEntry hash n none (.routerDelete r now.toNat) }

/-- One topic of `ensure_router_topics`. -/
def ensureTopic (s : Registry Blob) (name : String) (now : Int) : Registry Blob :=
  if (s.engine.getTopic name).isSome then s else s.register S hash n name {} now

/-- The head of a topic, zero for a missing one. -/
def headOf (s : Registry Blob) (name : String) : Nat :=
  ((s.engine.getTopic name).map (·.headSeq)).getD 0

def putRouter (s : Registry Blob) (r : Router) (now : Int) : Option (Registry Blob) :=
  if (s.engine.getTopic r.dest).isNone && !r.createDest then none
  else if s.engine.routers.fansIn r then none
  else if s.engine.routers.repoints r then none
  else
    match s.engine.routers.upsert r with
    | none => none
    | some (g, created) =>
      let g := if created then g.noteForwarded r.name (s.headOf r.source) 0 else g
      let s := { s with engine := { s.engine with routers := g } }
      let s := (s.ensureTopic S hash n r.source now).ensureTopic S hash n r.dest now
      let g := if created then s.engine.routers.seedDestBase r.name (s.headOf r.dest)
        else s.engine.routers
      let seeds := ((g.find r.name).map fun e => (e.cursor, e.destBase)).getD (0, 0)
      some { s with
        engine := { s.engine with routers := g }
        log := s.log ++ [shardEntry hash n none (.routerCreate ⟨r, seeds.1, seeds.2⟩ now.toNat)] }

def deleteRouter (s : Registry Blob) (name : String) (now : Int) : Option (Registry Blob) :=
  if (s.engine.routers.get name).isNone then none
  else some { s with
    engine := { s.engine with routers := s.engine.routers.remove name }
    log := s.log ++ [shardEntry hash n none (.routerDelete name now.toNat)] }

/-- `write` to an `fsync` topic.  The clock reads milliseconds since the epoch as an `i64`. -/
def write (s : Registry Blob) (name : String) (records : List RecordIn) (now : Int) :
    Option (Registry Blob) :=
  match s.engine.getTopic name with
  | none => none
  | some b =>
    if b.config.durabilityClass = .fsync ∧ records ≠ [] ∧ 0 ≤ now ∧ now < 2 ^ 63 then
      let stored := records.map fun r => r.stored S now
      let seqs := (b.stageAppend stored).2.seqs
      some { s with
        engine := s.engine.modifyByName name fun b => b.append stored
        log := s.log ++ (List.zipWith (WritePath.appendFrame S b.topicId now) seqs stored).map
          (shardEntry hash n (some name))
        acked := s.acked ++ List.zipWith (fun q r => (b.topicId, q, r)) seqs stored }
    else none

def derivedBy (s : Registry Blob) : Pass → List Nat
  | .retain .. => []
  | .trim dest => ((s.engine.getTopic dest).map (·.topicId)).toList
  | .derive dest _ => ((s.engine.getTopic dest).map (·.topicId)).toList
  | .note .. => []

def passEntries (s : Registry Blob) : Pass → List (LogEntry Blob)
  | .retain name now =>
    (((s.engine.getTopic name).map fun b => retainFrames b now).getD []).map
      (shardEntry hash n (some name))
  | _ => []

def step (s : Registry Blob) : RegistryAction → Option (Registry Blob)
  | .putTopic name config now => s.putTopic S hash n name config now
  | .deleteTopic name now => s.deleteTopic hash n noBytes name now
  | .putRouter r now => s.putRouter S hash n r now
  | .deleteRouter name now => s.deleteRouter hash n name now
  | .write name records now => s.write S hash n name records now
  | .pass p =>
    some { s with
      engine := s.engine.pass p
      log := s.log ++ s.passEntries hash n p
      derived := s.derivedBy p ++ s.derived }

/-- Recovery: the frames of the shards in the order the recovery loop applies them, the heads
reconciled, and then forwarding passes that log nothing. -/
def recover (log : List (LogEntry Blob)) (order : List Nat) (now : Int) (passes : List Pass) :
    Engine :=
  passes.foldl Engine.pass
    (Engine.recover S now
      ((replayOrder (groupsOf n (history log)) order).map Placed.frame))

end Step

end Registry

end Topics
