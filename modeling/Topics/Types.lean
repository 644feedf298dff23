import Mathlib.Algebra.BigOperators.Group.List.Basic
import Mathlib.Data.String.Basic
import Mathlib.Tactic.Ring

/-!
# Wire and storage types

The data every layer of the engine shares: JSON values and the serializer that turns them
into bytes, topic configuration, tag filters, routers, and the logical WAL record.

Sequence numbers, ids and byte counts are `u64` in the source and `Nat` here: no modelled
function depends on their overflow.  Timestamps are `i64` and become `Int`; the two places
where the machine width shows (a saturating subtraction and an `as i64` cast in the TTL
test) are kept as `i64SaturatingSub` and `asI64`.
-/

namespace Topics

/-! ## JSON values and their serializer -/

/-- `serde_json::Number`: a float is kept as its bit pattern. -/
inductive Number where
  | posInt (n : Nat)
  | negInt (n : Int)
  | float (bits : UInt64)
  deriving DecidableEq, Repr

inductive Value where
  | null
  | bool (b : Bool)
  | number (n : Number)
  | string (s : String)
  | array (xs : List Value)
  | object (kvs : List (String × Value))
  deriving Repr

instance : Inhabited Value := ⟨.null⟩

/-- `Map::insert`: the order of the keys is not observed. -/
def insertField (kvs : List (String × Value)) (field : String × Value) : List (String × Value) :=
  kvs.filter (fun kv => kv.1 ≠ field.1) ++ [field]

/-- `types::Durability`: the commit class of a topic. -/
inductive Durability where
  | ephemeral
  | memory
  | disk
  | fsync
  deriving DecidableEq, Repr

inductive TopicType where
  | log
  | queue
  deriving DecidableEq, Repr

/-- `types::Discard`: what a full topic does with an incoming write. -/
inductive Discard where
  | old
  | reject
  deriving DecidableEq, Repr

/-- `types::TopicConfig`, with the source's defaults.  The scheduling fields (`priority`,
`auto_priority`), `auto_create` and `claim_jitter_ms` are left out: no modelled function
reads them. -/
structure TopicConfig where
  topicType : TopicType := .log
  ttlMs : Nat := 0
  capRecords : Nat := 0
  capBytes : Nat := 0
  discard : Discard := .old
  durable : Bool := false
  durability : Option Durability := none
  idempotencyWindowMs : Nat := 120000
  dedupeNode : Bool := true
  leaseMs : Nat := 30000
  maxDeliveries : Nat := 0
  deadLetter : Option String := none
  leasesDurable : Bool := false
  deriving DecidableEq, Repr

namespace TopicConfig

instance : Inhabited TopicConfig := ⟨{}⟩

def isQueue (c : TopicConfig) : Bool := c.topicType == .queue

/-- An explicit `durability` wins; otherwise `durable` selects `fsync` or `disk`. -/
def durabilityClass (c : TopicConfig) : Durability :=
  match c.durability with
  | some d => d
  | none => if c.durable then .fsync else .disk

def usesPersistentRecordStore (c : TopicConfig) : Bool :=
  c.durabilityClass != .ephemeral

end TopicConfig

/-- `config::MAX_NODE_BYTES`. -/
def maxNodeBytes : Nat := 128

/-- `serde_json` as the engine uses it.  `Blob` is the type of the bytes it produces, which
the storage layer carries without looking inside; `len` is their length. -/
structure Serde (Blob : Type) where
  toVec : Value → Blob
  fromSlice : Blob → Option Value
  len : Blob → Nat
  configToVec : TopicConfig → Blob
  configFromSlice : Blob → Option TopicConfig

/-- The documented behaviour of the serializer: parsing what it wrote gives the value back. -/
structure Serde.RoundTrips {Blob : Type} (S : Serde Blob) : Prop where
  value : ∀ v, S.fromSlice (S.toVec v) = some v
  config : ∀ c, S.configFromSlice (S.configToVec c) = some c

/-- A serializer that keeps values as they are; it round-trips. -/
def Serde.identity : Serde (Value ⊕ TopicConfig) where
  toVec := Sum.inl
  fromSlice := Sum.getLeft?
  len _ := 1
  configToVec := Sum.inr
  configFromSlice := Sum.getRight?

theorem Serde.identity_roundTrips : Serde.identity.RoundTrips :=
  ⟨fun _ => rfl, fun _ => rfl⟩

section Payload

variable {Blob : Type} (S : Serde Blob)

/-- `encode_record_payload`: the `{"d": data, "m": meta}` envelope of a WAL `Append`. -/
def encodeRecordPayload (data : Value) (meta? : Option Value) : Blob :=
  S.toVec (.object (("d", data) :: (meta?.map fun m => ("m", m)).toList))

/-- `decode_record_payload`: a malformed blob reads as `Null` with no meta. -/
def decodeRecordPayload (blob : Blob) : Value × Option Value :=
  match S.fromSlice blob with
  | some (.object kvs) => ((kvs.lookup "d").getD .null, kvs.lookup "m")
  | _ => (.null, none)

/-- `payload_bytes`: the accounted size of a payload. -/
def payloadBytes (data : Value) (meta? : Option Value) : Nat :=
  S.len (S.toVec data) + (meta?.map fun m => S.len (S.toVec m)).getD 0

theorem decodeRecordPayload_encodeRecordPayload (hS : S.RoundTrips) (data : Value)
    (meta? : Option Value) :
    decodeRecordPayload S (encodeRecordPayload S data meta?) = (data, meta?) := by
  unfold decodeRecordPayload encodeRecordPayload
  rw [hS.value]
  cases meta? <;> simp [List.lookup_cons]

end Payload

/-! ## Filters and routers -/

inductive FilterOp where
  | eq
  | glob
  deriving DecidableEq, Repr

/-- `types::Filter`: for `glob`, `value` is the literal prefix. -/
structure Filter where
  op : FilterOp
  value : String
  deriving DecidableEq, Repr

/-- Rust's `str::starts_with`, on the characters of the two strings. -/
def startsWith (s pre : String) : Bool := pre.toList.isPrefixOf s.toList

inductive RouterGuarantee where
  | atLeastOnce
  | exactlyOnce
  deriving DecidableEq, Repr

structure Router where
  name : String
  source : String
  dest : String
  preserveNode : Bool := true
  preserveTag : Bool := true
  createDest : Bool := true
  filter : Option Filter := none
  allowCycle : Bool := false
  guarantee : RouterGuarantee := .atLeastOnce
  deriving DecidableEq, Repr

/-! ## WAL records -/

/-- `storage::RouterOp`: the payload of a `RouterCreate` frame.  The router's own fields are
kept as one `Router`; the selector encoding of its filter is a plain copy. -/
structure RouterOp where
  router : Router
  initialCursor : Nat
  initialDestBase : Nat
  deriving DecidableEq, Repr

/-- `storage::TopicConfigOp`: name and serialized config of a `TopicConfig` frame. -/
structure TopicConfigOp (Blob : Type) where
  name : String
  config : Blob

/-- The kind of a leases-log event (the `event` byte of a `Lease` frame). -/
inductive LeaseEvent where
  | claimed
  | released
  | extended
  | acked
  deriving DecidableEq, Repr

/-- `storage::WalRecord`: one logical record of the write-ahead log. -/
inductive WalRecord (Blob : Type) where
  | append (topicId seq ts : Nat) (node tag : Option String) (data : Blob)
  | delete (topicId : Nat) (beforeSeq : Option Nat) (match_ : Option Filter)
      (seqs : List Nat) (boundHead : Option Nat) (ts : Nat)
  | topicConfig (topicId : Nat) (op : TopicConfigOp Blob) (tombstone : Bool) (ts : Nat)
  | routerCreate (op : RouterOp) (ts : Nat)
  | routerDelete (name : String) (ts : Nat)
  | evictWatermark (topicId evictFloor expiryFloor earliestSeq ts : Nat)
  | checkpointMark (lastCheckpointSeq ts : Nat)
  | lease (topicId seq : Nat) (event : LeaseEvent) (node : String)
      (leaseId deadline deliveries ts : Nat)
  | headWatermark (topicId headSeq ts : Nat)

/-- `WalRecord::topic_id`: `0` for the frames that belong to no topic. -/
def WalRecord.topicId {Blob : Type} : WalRecord Blob → Nat
  | .append id .. => id
  | .delete id .. => id
  | .topicConfig id .. => id
  | .evictWatermark id .. => id
  | .lease id .. => id
  | .headWatermark id .. => id
  | .routerCreate .. => 0
  | .routerDelete .. => 0
  | .checkpointMark .. => 0

/-! ## Machine arithmetic of the TTL test -/

/-- `i64::saturating_sub`. -/
def i64SaturatingSub (a b : Int) : Int := max (-2 ^ 63) (min (2 ^ 63 - 1) (a - b))

/-- The cast `n as i64` of a `u64`. -/
def asI64 (n : Nat) : Int := (BitVec.ofNat 64 n).toInt

end Topics
