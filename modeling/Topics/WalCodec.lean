import Topics.Lib.Bytes

/-!
# The WAL frame codec

`encode_frame`, `decode_one` and `WalReader` (`storage/wal.rs`), byte for byte.  The XXH3
checksum is a parameter.
-/

namespace Topics.Wire

open Lib Lib.Reader List Option

/-! ## Records -/

inductive MatchSel where
  | eq (value : String)
  | glob (value : String)
  deriving DecidableEq, Repr

structure RouterOp where
  name : String
  source : String
  dest : String
  preserveNode : Bool
  preserveTag : Bool
  createDest : Bool
  allowCycle : Bool
  exactlyOnce : Bool
  filter : Option MatchSel
  initialCursor : UInt64
  initialDestBase : UInt64
  deriving DecidableEq, Repr

structure TopicConfigOp where
  name : String
  config : List UInt8
  deriving DecidableEq, Repr

inductive WalRecord where
  | append (topicId seq ts : UInt64) (node tag : Option String) (data : List UInt8)
  | delete (topicId : UInt64) (beforeSeq : Option UInt64) (match_ : Option MatchSel)
      (seqs : List UInt64) (boundHead : Option UInt64) (ts : UInt64)
  | topicConfig (topicId : UInt64) (op : TopicConfigOp) (tombstone : Bool) (ts : UInt64)
  | routerCreate (op : RouterOp) (ts : UInt64)
  | routerDelete (name : String) (ts : UInt64)
  | evictWatermark (topicId evictFloor expiryFloor earliestSeq ts : UInt64)
  | checkpointMark (lastCheckpointSeq ts : UInt64)
  | lease (topicId seq : UInt64) (event : UInt8) (node : String)
      (leaseId deadline deliveries ts : UInt64)
  | headWatermark (topicId headSeq ts : UInt64)
  deriving DecidableEq, Repr

/-- A record with the durable flag of its frame. -/
structure WalFrame where
  record : WalRecord
  durable : Bool
  deriving DecidableEq, Repr

def WalRecord.typeTag : WalRecord → UInt8
  | .append .. => 1
  | .topicConfig _ _ false _ => 2
  | .topicConfig _ _ true _ => 3
  | .routerCreate .. => 4
  | .routerDelete .. => 5
  | .delete .. => 6
  | .evictWatermark .. => 7
  | .checkpointMark .. => 8
  | .lease .. => 10
  | .headWatermark .. => 11

def WalRecord.topicId : WalRecord → UInt64
  | .append id .. | .delete id .. | .topicConfig id .. | .evictWatermark id .. | .lease id ..
  | .headWatermark id .. => id
  | .routerCreate .. | .routerDelete .. | .checkpointMark .. => 0

def WalRecord.seq : WalRecord → UInt64
  | .append _ seq .. | .lease _ seq .. => seq
  | _ => 0

def WalRecord.ts : WalRecord → UInt64
  | .append _ _ ts .. => ts
  | .delete _ _ _ _ _ ts | .topicConfig _ _ _ ts | .routerCreate _ ts | .routerDelete _ ts
  | .evictWatermark _ _ _ _ ts | .checkpointMark _ ts | .lease _ _ _ _ _ _ _ ts
  | .headWatermark _ _ ts => ts

/-- The inline node of a frame; only an `Append` has one. -/
def WalRecord.node : WalRecord → Option String
  | .append _ _ _ node .. => node
  | _ => none

/-- The inline tag of a frame; only an `Append` has one. -/
def WalRecord.tag : WalRecord → Option String
  | .append _ _ _ _ tag _ => tag
  | _ => none

/-! ## Fields -/

def utf8 (s : String) : List UInt8 := s.toUTF8.data.toList

/-- `String::from_utf8`. -/
def fromUtf8 (bs : List UInt8) : Option String := String.fromUTF8? ⟨bs.toArray⟩

theorem fromUtf8_utf8 (s : String) : fromUtf8 (utf8 s) = some s := by
  have hbytes : (⟨(utf8 s).toArray⟩ : ByteArray) = s.toUTF8 := rfl
  rw [fromUtf8, hbytes]
  exact dif_pos s.isValidUTF8

/-- `u64::to_le_bytes`. -/
def writeU64 (x : UInt64) : List UInt8 := leBytes 8 x.toNat

def writeLpBytes (b : List UInt8) : List UInt8 := leBytes 4 b.length ++ b

def writeLpStr (s : String) : List UInt8 := writeLpBytes (utf8 s)

def writeMatch : Option MatchSel → List UInt8
  | none => [0]
  | some (.eq v) => [1] ++ ([0] ++ writeLpStr v)
  | some (.glob v) => [1] ++ ([1] ++ writeLpStr v)

/-- A present-byte and the number, as `Delete` stores its bounds. -/
def writeOptU64 : Option UInt64 → List UInt8
  | none => [0]
  | some x => [1] ++ writeU64 x

/-- `read_u8`. -/
def readU8 : Reader UInt8
  | [] => none
  | b :: rest => some (b, rest)

/-- `read_u64`. -/
def readU64 : Reader UInt64 := do return UInt64.ofNat (← le 8)

def readLpBytes : Reader (List UInt8) := do take (← le 4)

def readLpStr : Reader String := do ofOption (fromUtf8 (← readLpBytes))

def readMatch : Reader (Option MatchSel) := do
  match ← readU8 with
  | 0 => return none
  | 1 =>
    let op ← readU8
    let v ← readLpStr
    match op with
    | 0 => return some (.eq v)
    | 1 => return some (.glob v)
    | _ => ofOption none
  | _ => ofOption none

/-! ### They read back -/

theorem reads_readU8 (b : UInt8) : Reads readU8 b [b] := fun _ => rfl

theorem reads_readU64 (x : UInt64) : Reads readU64 x (writeU64 x) := by
  have h := (reads_le (w := 8) x.toNat_lt).map (f := UInt64.ofNat)
  rwa [UInt64.ofNat_toNat] at h

theorem reads_readLpBytes {b : List UInt8} (h : b.length < 2 ^ 32) :
    Reads readLpBytes b (writeLpBytes b) :=
  (reads_le (w := 4) h).bind (reads_take b)

theorem reads_readLpStr {s : String} (h : (utf8 s).length < 2 ^ 32) :
    Reads readLpStr s (writeLpStr s) := by
  have hbind := (reads_readLpBytes h).bind (q := fun b => ofOption (fromUtf8 b))
    (reads_ofOption (fromUtf8_utf8 s))
  rwa [append_nil] at hbind

def matchLen : Option MatchSel → Nat
  | none => 0
  | some (.eq v) => (utf8 v).length
  | some (.glob v) => (utf8 v).length

theorem reads_readMatch {m : Option MatchSel} (h : matchLen m < 2 ^ 32) :
    Reads readMatch m (writeMatch m) := by
  rcases m with _ | v | v
  · exact (reads_readU8 0).bind (reads_pure none)
  · exact (reads_readU8 1).bind ((reads_readU8 0).bind (reads_readLpStr h).map)
  · exact (reads_readU8 1).bind ((reads_readU8 1).bind (reads_readLpStr h).map)

/-! ## Frames -/

/-- The bits of a `RouterCreate`'s flag byte. -/
def routerBools (op : RouterOp) : UInt8 :=
  (if op.preserveNode then 1 else 0) ||| (if op.preserveTag then 2 else 0) |||
    (if op.createDest then 4 else 0) ||| (if op.allowCycle then 8 else 0) |||
    if op.exactlyOnce then 16 else 0

/-- The data section of a frame: the payload of an `Append`, the encoded body of a control
frame. -/
def WalRecord.data : WalRecord → List UInt8
  | .append _ _ _ _ _ data => data
  | .delete _ beforeSeq match_ seqs boundHead _ =>
    writeOptU64 beforeSeq ++ (writeMatch match_ ++ (leBytes 4 seqs.length ++
      (seqs.flatMap writeU64 ++ writeOptU64 boundHead)))
  | .topicConfig _ op _ _ => writeLpStr op.name ++ writeLpBytes op.config
  | .routerCreate op _ =>
    writeLpStr op.name ++ (writeLpStr op.source ++ (writeLpStr op.dest ++ ([routerBools op] ++
      (writeMatch op.filter ++ (writeU64 op.initialCursor ++ writeU64 op.initialDestBase)))))
  | .routerDelete name _ => writeLpStr name
  | .evictWatermark _ evictFloor expiryFloor earliestSeq _ =>
    writeU64 evictFloor ++ (writeU64 earliestSeq ++ writeU64 expiryFloor)
  | .checkpointMark lastCheckpointSeq _ => writeU64 lastCheckpointSeq
  | .lease _ _ event node leaseId deadline deliveries _ =>
    [event] ++ (writeU64 leaseId ++ (writeU64 deadline ++ (writeU64 deliveries ++ writeLpStr node)))
  | .headWatermark _ headSeq _ => writeU64 headSeq

/-- The flags byte: bit 0 a tag, bit 1 a node, bit 2 durable. -/
def flagsOf (r : WalRecord) (durable : Bool) : UInt8 :=
  (if durable then 4 else 0) ||| (if r.node.isSome then 2 else 0) |||
    if r.tag.isSome then 1 else 0

def inlineBytes (s : Option String) : List UInt8 := (s.map utf8).getD []

def header (r : WalRecord) (durable : Bool) : List UInt8 :=
  [r.typeTag] ++ ([flagsOf r durable] ++ (writeU64 r.topicId ++ (writeU64 r.seq ++
    (writeU64 r.ts ++ (leBytes 2 (inlineBytes r.node).length ++
      (leBytes 2 (inlineBytes r.tag).length ++ leBytes 4 r.data.length))))))

def frameBody (r : WalRecord) (durable : Bool) : List UInt8 :=
  header r durable ++ (inlineBytes r.node ++ (inlineBytes r.tag ++ r.data))

variable (crc : List UInt8 → UInt64)

def encodeFrame (r : WalRecord) (durable : Bool) : List UInt8 :=
  let framed := frameBody r durable ++ writeU64 (crc (frameBody r durable))
  leBytes 4 framed.length ++ framed

structure Header where
  typeTag : UInt8
  flags : UInt8
  topicId : UInt64
  seq : UInt64
  ts : UInt64
  nodeLen : Nat
  tagLen : Nat
  dataLen : Nat

def readHeader : Reader Header := do
  let typeTag ← readU8
  let flags ← readU8
  let topicId ← readU64
  let seq ← readU64
  let ts ← readU64
  let nodeLen ← le 2
  let tagLen ← le 2
  let dataLen ← le 4
  return ⟨typeTag, flags, topicId, seq, ts, nodeLen, tagLen, dataLen⟩

/-- The `before_seq` of a `Delete`: any present-byte but 1 reads as absent. -/
def readBeforeSeq : Reader (Option UInt64) := do
  if (← readU8) = 1 then return some (← readU64) else return none

/-- The `bound_head` of a `Delete`. -/
def readBoundHead : Reader (Option UInt64) := do
  match ← readU8 with
  | 1 => return some (← readU64)
  | 0 => return none
  | _ => ofOption none

/-- The body of a `Delete` frame. -/
def readDelete (h : Header) : Reader WalRecord := do
  let beforeSeq ← readBeforeSeq
  let match_ ← readMatch
  let seqs ← many readU64 (← le 4)
  let boundHead ← readBoundHead
  return .delete h.topicId beforeSeq match_ seqs boundHead h.ts

/-- The body of a `TopicConfig` frame. -/
def readTopicConfig (h : Header) (tombstone : Bool) : Reader WalRecord := do
  let name ← readLpStr
  let config ← readLpBytes
  return .topicConfig h.topicId ⟨name, config⟩ tombstone h.ts

/-- The body of a `RouterCreate` frame. -/
def readRouterCreate (h : Header) : Reader WalRecord := do
  let name ← readLpStr
  let source ← readLpStr
  let dest ← readLpStr
  let bools ← readU8
  let filter ← readMatch
  let initialCursor ← readU64
  let initialDestBase ← readU64
  return .routerCreate
    { name, source, dest, filter, initialCursor, initialDestBase
      preserveNode := bools &&& 1 != 0
      preserveTag := bools &&& 2 != 0
      createDest := bools &&& 4 != 0
      allowCycle := bools &&& 8 != 0
      exactlyOnce := bools &&& 16 != 0 } h.ts

/-- The body of an `EvictWatermark` frame. -/
def readEvictWatermark (h : Header) : Reader WalRecord := do
  let evictFloor ← readU64
  let earliestSeq ← readU64
  let expiryFloor ← readU64
  return .evictWatermark h.topicId evictFloor expiryFloor earliestSeq h.ts

/-- The body of a `Lease` frame. -/
def readLease (h : Header) : Reader WalRecord := do
  let event ← readU8
  let leaseId ← readU64
  let deadline ← readU64
  let deliveries ← readU64
  let node ← readLpStr
  return .lease h.topicId h.seq event node leaseId deadline deliveries h.ts

/-- The record of a frame, by its type tag.  Some variants must use up the data section. -/
def decodeRecord (h : Header) (node tag : Option String) (data : List UInt8) : Option WalRecord :=
  match h.typeTag with
  | 1 => some (.append h.topicId h.seq h.ts node tag data)
  | 6 => parseAll (readDelete h) data
  | 2 => parse (readTopicConfig h false) data
  | 3 => parse (readTopicConfig h true) data
  | 4 => parseAll (readRouterCreate h) data
  | 5 => parse (do return .routerDelete (← readLpStr) h.ts) data
  | 7 => parseAll (readEvictWatermark h) data
  | 9 => parse (readTopicConfig h false) data
  | 8 => parse (do return .checkpointMark (← readU64) h.ts) data
  | 10 => parse (readLease h) data
  | 11 => parse (do return .headWatermark h.topicId (← readU64) h.ts) data
  | _ => none

def decodeInline (present : Bool) (bs : List UInt8) : Option (Option String) :=
  if present then (fromUtf8 bs).map some else some none

/-- The part of `decode_one` behind the checksum. -/
def decodeBody (bytes : List UInt8) : Option WalFrame := do
  let (h, body) ← readHeader.run bytes
  if h.nodeLen + h.tagLen + h.dataLen ≠ body.length then none
  else
    let node ← decodeInline (h.flags &&& 2 != 0) (body.take h.nodeLen)
    let tag ← decodeInline (h.flags &&& 1 != 0) ((body.drop h.nodeLen).take h.tagLen)
    let record ← decodeRecord h node tag (body.drop (h.nodeLen + h.tagLen))
    return ⟨record, h.flags &&& 4 != 0⟩

/-- `decode_one`: the frame at the front of a buffer and the bytes it takes; `none` if the buffer
does not start with a complete valid frame. -/
def decodeOne (buf : List UInt8) : Option (WalFrame × Nat) :=
  if buf.length < 4 then none
  else
    let frameLen := leNat (buf.take 4)
    if frameLen < 34 + 8 then none
    else
      let total := 4 + frameLen
      if buf.length < total then none
      else
        let body := (buf.take (total - 8)).drop 4
        if leNat ((buf.take total).drop (total - 8)) ≠ (crc body).toNat then none
        else (decodeBody body).map fun frame => (frame, total)

/-! ## Round trip -/

/-- The sizes a frame can hold: node and tag in 16 bits, the frame in 32. -/
structure WalRecord.Fits (r : WalRecord) : Prop where
  node : (inlineBytes r.node).length < 2 ^ 16
  tag : (inlineBytes r.tag).length < 2 ^ 16
  frame : (frameBody r true).length + 8 < 2 ^ 32

def headerOf (r : WalRecord) (durable : Bool) : Header where
  typeTag := r.typeTag
  flags := flagsOf r durable
  topicId := r.topicId
  seq := r.seq
  ts := r.ts
  nodeLen := (inlineBytes r.node).length
  tagLen := (inlineBytes r.tag).length
  dataLen := r.data.length

theorem length_header (r : WalRecord) (durable : Bool) : (header r durable).length = 34 := by
  simp [header, writeU64]

theorem length_frameBody (r : WalRecord) (durable : Bool) :
    (frameBody r durable).length =
      34 + (inlineBytes r.node).length + (inlineBytes r.tag).length + r.data.length := by
  simp only [frameBody, length_append, length_header]
  omega

variable {r : WalRecord} {buf : List UInt8} {frame : WalFrame} {n : Nat}

theorem WalRecord.Fits.data (h : r.Fits) : r.data.length < 2 ^ 32 := by
  have := h.frame
  rw [length_frameBody] at this
  omega

theorem reads_readHeader (h : r.Fits) (durable : Bool) :
    Reads readHeader (headerOf r durable) (header r durable) := by
  refine (reads_readU8 _).bind ((reads_readU8 _).bind ((reads_readU64 _).bind
    ((reads_readU64 _).bind ((reads_readU64 _).bind ((reads_le ?_).bind
      ((reads_le ?_).bind (reads_le ?_).map))))))
  · exact h.node
  · exact h.tag
  · exact h.data

theorem reads_readBeforeSeq (b : Option UInt64) : Reads readBeforeSeq b (writeOptU64 b) := by
  cases b with
  | none => exact (reads_readU8 0).bind (reads_pure none)
  | some x => exact (reads_readU8 1).bind (reads_readU64 x).map

theorem reads_readBoundHead (b : Option UInt64) : Reads readBoundHead b (writeOptU64 b) := by
  cases b with
  | none => exact (reads_readU8 0).bind (reads_pure none)
  | some x => exact (reads_readU8 1).bind (reads_readU64 x).map

theorem length_flatMap_writeU64 (xs : List UInt64) :
    (xs.flatMap writeU64).length = 8 * xs.length := by
  induction xs with
  | nil => rfl
  | cons x xs ih =>
    rw [flatMap_cons, length_append, ih, length_cons, writeU64, length_leBytes]
    omega

theorem length_writeLpStr (s : String) : (writeLpStr s).length = 4 + (utf8 s).length := by
  simp [writeLpStr, writeLpBytes]

theorem matchLen_le (m : Option MatchSel) : matchLen m ≤ (writeMatch m).length := by
  rcases m with _ | v | v
  · exact Nat.zero_le _
  all_goals
    simp only [matchLen, writeMatch, length_append, length_writeLpStr]
    omega

private theorem bits_of_bools : ∀ a b c d e : Bool,
    let bits : UInt8 := (if a then 1 else 0) ||| (if b then 2 else 0) ||| (if c then 4 else 0) |||
      (if d then 8 else 0) ||| if e then 16 else 0
    (bits &&& 1 != 0) = a ∧ (bits &&& 2 != 0) = b ∧ (bits &&& 4 != 0) = c ∧
      (bits &&& 8 != 0) = d ∧ (bits &&& 16 != 0) = e := by
  decide

theorem routerOp_of_bools (op : RouterOp) :
    { op with
      preserveNode := routerBools op &&& 1 != 0
      preserveTag := routerBools op &&& 2 != 0
      createDest := routerBools op &&& 4 != 0
      allowCycle := routerBools op &&& 8 != 0
      exactlyOnce := routerBools op &&& 16 != 0 } = op := by
  obtain ⟨h1, h2, h3, h4, h5⟩ := bits_of_bools op.preserveNode op.preserveTag op.createDest
    op.allowCycle op.exactlyOnce
  rw [routerBools, h1, h2, h3, h4, h5]

theorem decodeRecord_data (h : r.data.length < 2 ^ 32) (durable : Bool) :
    decodeRecord (headerOf r durable) r.node r.tag r.data = some r := by
  cases r with
  | append => rfl
  | delete topicId beforeSeq match_ seqs boundHead ts =>
    simp only [WalRecord.data, length_append, length_flatMap_writeU64] at h
    have hmatch := matchLen_le match_
    have hseqs : seqs.length < 256 ^ 4 := by norm_num at *; omega
    refine Reads.parseAll (p := readDelete _) ?_
    exact (reads_readBeforeSeq _).bind ((reads_readMatch (by omega)).bind ((reads_le hseqs).bind
      ((reads_many fun x _ => reads_readU64 x).bind (reads_readBoundHead _).map)))
  | topicConfig topicId op tombstone ts =>
    simp only [WalRecord.data, length_append, length_writeLpStr, writeLpBytes] at h
    have hread : Reads (readTopicConfig (headerOf (.topicConfig topicId op tombstone ts) durable)
        tombstone) (.topicConfig topicId op tombstone ts)
        (WalRecord.topicConfig topicId op tombstone ts).data :=
      (reads_readLpStr (by omega)).bind (reads_readLpBytes (by omega)).map
    cases tombstone <;> exact hread.parse
  | routerCreate op ts =>
    simp only [WalRecord.data, length_append, length_writeLpStr] at h
    have hmatch := matchLen_le op.filter
    have hread : Reads (readRouterCreate (headerOf (.routerCreate op ts) durable))
        (.routerCreate { op with
          preserveNode := routerBools op &&& 1 != 0
          preserveTag := routerBools op &&& 2 != 0
          createDest := routerBools op &&& 4 != 0
          allowCycle := routerBools op &&& 8 != 0
          exactlyOnce := routerBools op &&& 16 != 0 } ts)
        (WalRecord.routerCreate op ts).data :=
      (reads_readLpStr (by omega)).bind ((reads_readLpStr (by omega)).bind
        ((reads_readLpStr (by omega)).bind ((reads_readU8 _).bind
          ((reads_readMatch (by omega)).bind ((reads_readU64 _).bind (reads_readU64 _).map)))))
    rw [routerOp_of_bools] at hread
    exact hread.parseAll
  | routerDelete name ts =>
    simp only [WalRecord.data, length_writeLpStr] at h
    exact (reads_readLpStr (by omega)).map.parse
  | evictWatermark topicId evictFloor expiryFloor earliestSeq ts =>
    refine Reads.parseAll (p := readEvictWatermark _) ?_
    exact (reads_readU64 _).bind ((reads_readU64 _).bind (reads_readU64 _).map)
  | checkpointMark | headWatermark => exact (reads_readU64 _).map.parse
  | lease topicId seq event node leaseId deadline deliveries ts =>
    simp only [WalRecord.data, length_append, length_writeLpStr] at h
    refine Reads.parse (p := readLease _) ?_
    exact (reads_readU8 _).bind ((reads_readU64 _).bind ((reads_readU64 _).bind
      ((reads_readU64 _).bind (reads_readLpStr (by omega)).map)))

private theorem bits_of_flags : ∀ a b c : Bool,
    let bits : UInt8 := (if a then 4 else 0) ||| (if b then 2 else 0) ||| if c then 1 else 0
    (bits &&& 4 != 0) = a ∧ (bits &&& 2 != 0) = b ∧ (bits &&& 1 != 0) = c := by
  decide

theorem decodeInline_inlineBytes (s : Option String) :
    decodeInline s.isSome (inlineBytes s) = some s := by
  cases s with
  | none => rfl
  | some s =>
    exact congrArg (Option.map some) (fromUtf8_utf8 s)

theorem decodeBody_frameBody (h : r.Fits) (durable : Bool) :
    decodeBody (frameBody r durable) = some ⟨r, durable⟩ := by
  have hhead := reads_readHeader h durable (inlineBytes r.node ++ (inlineBytes r.tag ++ r.data))
  -- the flags say which inline strings are present
  have hdurable : ((headerOf r durable).flags &&& 4 != 0) = durable :=
    (bits_of_flags durable r.node.isSome r.tag.isSome).1
  have hnode : ((headerOf r durable).flags &&& 2 != 0) = r.node.isSome :=
    (bits_of_flags durable r.node.isSome r.tag.isSome).2.1
  have htag : ((headerOf r durable).flags &&& 1 != 0) = r.tag.isSome :=
    (bits_of_flags durable r.node.isSome r.tag.isSome).2.2
  -- and the three sections are cut at the lengths of the header
  have hlen : (headerOf r durable).nodeLen + (headerOf r durable).tagLen +
      (headerOf r durable).dataLen =
      (inlineBytes r.node ++ (inlineBytes r.tag ++ r.data)).length := by
    simp only [headerOf, length_append]
    omega
  have htake : (inlineBytes r.node ++ (inlineBytes r.tag ++ r.data)).take
      (headerOf r durable).nodeLen = inlineBytes r.node := take_left
  have hmid : ((inlineBytes r.node ++ (inlineBytes r.tag ++ r.data)).drop
      (headerOf r durable).nodeLen).take (headerOf r durable).tagLen = inlineBytes r.tag := by
    simp only [headerOf, drop_left, take_left]
  have hdrop : (inlineBytes r.node ++ (inlineBytes r.tag ++ r.data)).drop
      ((headerOf r durable).nodeLen + (headerOf r durable).tagLen) = r.data := by
    simp only [headerOf]
    rw [← drop_drop, drop_left, drop_left]
  simp only [decodeBody, frameBody, hhead, bind_eq_bind, bind_some, hlen, ne_eq,
    not_true_eq_false, if_false, hnode, htag, hdurable, htake, hmid, hdrop,
    decodeInline_inlineBytes, decodeRecord_data h.data]
  rfl

theorem length_encodeFrame (r : WalRecord) (durable : Bool) :
    (encodeFrame crc r durable).length = 4 + (frameBody r durable).length + 8 := by
  simp only [encodeFrame, length_append, length_leBytes, writeU64]
  omega

/-- **Round trip.**  A frame whose sizes fit reads back, whatever follows it. -/
theorem decodeOne_encodeFrame (h : r.Fits) (durable : Bool) (rest : List UInt8) :
    decodeOne crc (encodeFrame crc r durable ++ rest) =
      some (⟨r, durable⟩, (encodeFrame crc r durable).length) := by
  have hbody : (frameBody r durable).length + 8 < 256 ^ 4 := by
    have := h.frame
    rw [length_frameBody] at this ⊢
    omega
  have hmin : 34 ≤ (frameBody r durable).length := by
    rw [length_frameBody]
    omega
  have htotal := length_encodeFrame crc r durable
  generalize hC : writeU64 (crc (frameBody r durable)) = stored
  have hstored : stored.length = 8 := by rw [← hC, writeU64, length_leBytes]
  generalize hL : leBytes 4 ((frameBody r durable).length + 8) = len
  have hlen : len.length = 4 := by rw [← hL, length_leBytes]
  have hbuf : encodeFrame crc r durable = len ++ (frameBody r durable ++ stored) := by
    rw [encodeFrame, hC, length_append, hstored, hL]
  have hread : leNat ((encodeFrame crc r durable ++ rest).take 4) =
      (frameBody r durable).length + 8 := by
    rw [hbuf, append_assoc, ← hlen, take_left, ← hL, leNat_leBytes hbody]
  have hcrc : leNat stored = (crc (frameBody r durable)).toNat := by
    rw [← hC, writeU64, leNat_leBytes]
    exact (crc (frameBody r durable)).toNat_lt
  -- the body and the checksum are the slices `decode_one` takes
  have hslice : ((encodeFrame crc r durable ++ rest).take
      (4 + ((frameBody r durable).length + 8) - 8)).drop 4 = frameBody r durable := by
    have hsplit : encodeFrame crc r durable ++ rest =
        (len ++ frameBody r durable) ++ (stored ++ rest) := by
      rw [hbuf]
      simp only [append_assoc]
    have hsize : 4 + ((frameBody r durable).length + 8) - 8 =
        (len ++ frameBody r durable).length := by
      rw [length_append, hlen]
      omega
    rw [hsplit, hsize, take_left, ← hlen, drop_left]
  have hsum : ((encodeFrame crc r durable ++ rest).take
      (4 + ((frameBody r durable).length + 8))).drop
        (4 + ((frameBody r durable).length + 8) - 8) = stored := by
    have hsize : 4 + ((frameBody r durable).length + 8) =
        (encodeFrame crc r durable).length := by omega
    have hfront : 4 + ((frameBody r durable).length + 8) - 8 =
        (len ++ frameBody r durable).length := by
      rw [length_append, hlen]
      omega
    rw [hfront, hsize, take_left, hbuf, ← append_assoc, drop_left]
  unfold decodeOne
  rw [if_neg (by simp only [length_append]; omega)]
  simp only [hread]
  rw [if_neg (by omega), if_neg (by simp only [length_append]; omega), hslice, hsum,
    if_neg (by rw [hcrc]; exact fun h => h rfl), decodeBody_frameBody h, htotal]
  simp only [map_some, some.injEq, Prod.mk.injEq, true_and]
  omega

/-! ## The reader -/

/-- `WalReader::next`, up to `fuel` times. -/
def readFrom : Nat → List UInt8 → List WalFrame
  | 0, _ => []
  | fuel + 1, buf =>
    match decodeOne crc buf with
    | none => []
    | some (frame, consumed) => frame :: readFrom fuel (buf.drop consumed)

/-- The frames a `WalReader` yields over a file. -/
def readFrames (buf : List UInt8) : List WalFrame := readFrom crc buf.length buf

theorem consumed_of_decodeOne (h : decodeOne crc buf = some (frame, n)) :
    46 ≤ n ∧ n ≤ buf.length := by
  unfold decodeOne at h
  split at h
  · cases h
  · simp only at h
    split at h
    · cases h
    · split at h
      · cases h
      · obtain ⟨frame', -, heq⟩ := map_eq_some_iff.mp (ite_none_left_eq_some.mp h).2
        cases heq
        omega

theorem readFrom_of_le {fuel : Nat} (h : buf.length ≤ fuel) :
    readFrom crc fuel buf = readFrames crc buf := by
  induction fuel using Nat.strong_induction_on generalizing buf with
  | _ fuel ih =>
    cases hbuf : buf.length with
    | zero =>
      obtain rfl := length_eq_zero_iff.mp hbuf
      cases fuel <;> rfl
    | succ len =>
      obtain ⟨fuel, rfl⟩ : ∃ f, fuel = f + 1 := ⟨fuel - 1, by omega⟩
      rw [readFrames, hbuf, readFrom, readFrom]
      cases hone : decodeOne crc buf with
      | none => rfl
      | some r =>
        have hlen := consumed_of_decodeOne crc hone
        have hdrop : (buf.drop r.2).length ≤ len := by
          rw [length_drop]
          omega
        simp only
        rw [ih fuel (Nat.lt_succ_self _) (hdrop.trans (by omega)), ih len (by omega) hdrop]

theorem readFrames_of_torn (h : decodeOne crc buf = none) :
    readFrames crc buf = [] := by
  unfold readFrames
  cases buf.length with
  | zero => rfl
  | succ len => rw [readFrom, h]

theorem readFrames_of_frame (h : decodeOne crc buf = some (frame, n)) :
    readFrames crc buf = frame :: readFrames crc (buf.drop n) := by
  have hlen := consumed_of_decodeOne crc h
  obtain ⟨len, hbuf⟩ : ∃ len, buf.length = len + 1 := ⟨buf.length - 1, by omega⟩
  rw [readFrames, hbuf, readFrom, h]
  refine congrArg (frame :: ·) (readFrom_of_le crc ?_)
  rw [length_drop]
  omega

def encodeAll (frames : List WalFrame) : List UInt8 :=
  frames.flatMap fun f => encodeFrame crc f.record f.durable

theorem encodeAll_cons (f : WalFrame) (fs : List WalFrame) :
    encodeAll crc (f :: fs) = encodeFrame crc f.record f.durable ++ encodeAll crc fs :=
  flatMap_cons

theorem encodeAll_append (fs gs : List WalFrame) :
    encodeAll crc (fs ++ gs) = encodeAll crc fs ++ encodeAll crc gs := flatMap_append

theorem readFrames_append {frames : List WalFrame} (h : ∀ f ∈ frames, f.record.Fits)
    (rest : List UInt8) :
    readFrames crc (encodeAll crc frames ++ rest) = frames ++ readFrames crc rest := by
  induction frames with
  | nil => rfl
  | cons f frames ih =>
    have hone := decodeOne_encodeFrame crc (h f mem_cons_self) f.durable
      (encodeAll crc frames ++ rest)
    rw [encodeAll_cons, append_assoc, readFrames_of_frame crc hone, drop_left,
      cons_append]
    exact congrArg (f :: ·) (ih fun g hg => h g (mem_cons_of_mem f hg))

theorem decodeOne_replicate_zero (n : Nat) : decodeOne crc (List.replicate n 0) = none := by
  unfold decodeOne
  split
  · rfl
  · rw [take_replicate]
    simp [leNat_replicate_zero]

end Topics.Wire
