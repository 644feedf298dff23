import Topics.Diff
import Topics.SelectorDelete
import Topics.TopicRun

/-!
# Router forwarding

`advance_router` (`engine/mod.rs`) copies records of a source topic to the destination of a
router.  The copies get no WAL frame: the cursor of the router and the log of the source are what
a restart derives them from, in `reforward_routers_on_recovery`.
-/

namespace Topics

open Lib List

variable {Blob : Type}

/-! ## Stored records -/

/-- `config::MAX_RECORD_BYTES`. -/
def maxRecordBytes : Nat := 2 ^ 20

/-- `config::MAX_META_BYTES`. -/
def maxMetaBytes : Nat := 16 * 2 ^ 10

/-- `config::MAX_META_KEYS`. -/
def maxMetaKeys : Nat := 64

/-- `config::MAX_TAG_BYTES`. -/
def maxTagBytes : Nat := 256

/-- The rejections of `build_stored_owned`, with the codes of the source. -/
inductive StoredError where
  | invalidRequest (message : String)
  | recordTooLarge (message : String)
  deriving DecidableEq, Repr

def buildStoredOwned (S : Serde Blob) (data : Value) (tag node : Option String)
    (meta? : Option Value) (now : Int) : Except StoredError StoredRecord :=
  let metaBytes := (meta?.map fun m => S.len (S.toVec m)).getD 0
  let metaKeys := match meta? with
    | some (.object kvs) => kvs.length
    | _ => 0
  if tag.any (fun t => t.utf8ByteSize > maxTagBytes) then
    .error (.invalidRequest ("tag exceeds " ++ toString maxTagBytes ++ " bytes"))
  else if node.any (fun n => n.utf8ByteSize > maxNodeBytes) then
    .error (.invalidRequest ("node exceeds " ++ toString maxNodeBytes ++ " bytes"))
  else if metaBytes > maxMetaBytes then
    .error (.invalidRequest ("meta exceeds " ++ toString maxMetaBytes ++ " bytes"))
  else if metaKeys > maxMetaKeys then
    .error (.invalidRequest ("meta exceeds " ++ toString maxMetaKeys ++ " keys"))
  else if payloadBytes S data meta? > maxRecordBytes then
    .error (.recordTooLarge ("record data+meta exceeds " ++ toString maxRecordBytes ++ " bytes"))
  else .ok
    { ts := now
      node := node
      tag := tag
      data := data
      «meta» := meta?
      bytes := payloadBytes S data meta?
      deleted := false
      payloadResident := true
      hops := 0 }

theorem deleted_of_buildStoredOwned {S : Serde Blob} {data : Value} {tag node : Option String}
    {meta? : Option Value} {now : Int} {r : StoredRecord}
    (h : buildStoredOwned S data tag node meta? now = .ok r) : r.deleted = false := by
  unfold buildStoredOwned at h
  simp only at h
  repeat' split at h
  all_goals cases h
  all_goals rfl

/-! ## Idempotency keys -/

/-- The epoch of a topic: every create starts at it, and nothing raises it. -/
def topicEpoch : Nat := 1

/-- `ROUTER_META_KEY`. -/
def routerMetaKey : String := "_topics_router"

def routerIdempotencyKey (router : Router) (source : TopicState) (seq : Nat) : String :=
  "router:" ++ router.name ++ ":" ++ toString source.topicId ++ ":" ++ toString topicEpoch ++ ":" ++
    toString seq

/-- `with_router_idempotency_meta`: the key joins a `meta` object that has room for it, and wraps
any other `meta`. -/
def withRouterIdempotencyMeta (meta? : Option Value) (key : String) (router : Router)
    (source : TopicState) (seq : Nat) : Option Value :=
  let routerMeta := (routerMetaKey, Value.object
    [("idempotency_key", .string key), ("router", .string router.name),
      ("source_topic", .string source.name),
      ("source_topic_id", .number (.posInt source.topicId)),
      ("source_epoch", .number (.posInt topicEpoch)), ("source_seq", .number (.posInt seq))])
  match meta? with
  | some (.object kvs) =>
    if (kvs.lookup routerMetaKey).isSome ∨ kvs.length < maxMetaKeys then
      some (.object (insertField kvs routerMeta))
    else some (.object [routerMeta, ("_topics_original_meta", .object kvs)])
  | some v => some (.object [routerMeta, ("_topics_original_meta", v)])
  | none => some (.object [routerMeta])

def routerMetaIdempotencyKey : Option Value → Option String
  | some (.object kvs) =>
    match kvs.lookup routerMetaKey with
    | some (.object routerMeta) =>
      match routerMeta.lookup "idempotency_key" with
      | some (.string key) => some key
      | _ => none
    | _ => none
  | _ => none

namespace TopicState

/-- `forward_lookup`: the record with its payload, and whether it is alive. -/
def forwardLookup (resolve : Nat → Value × Option Value) (b : TopicState) (seq : Nat) :
    Option (StoredRecord × Bool) :=
  (b.index.get seq).map fun r =>
    if r.deleted then (r, false)
    else
      let payload := slotPayload resolve seq r
      ({ r with data := payload.1, «meta» := payload.2 }, true)

/-- `router_dest_idempotency_keys`: the keys of the live records. -/
def routerDestIdempotencyKeys (resolve : Nat → Value × Option Value) (b : TopicState) :
    List String :=
  (List.range' b.earliestSeq (b.headSeq + 1 - b.earliestSeq)).filterMap fun seq =>
    match b.forwardLookup resolve seq with
    | some (r, true) => routerMetaIdempotencyKey r.meta
    | _ => none

end TopicState

/-! ## The walk over the source -/

/-- `config::ROUTER_BATCH`. -/
def routerBatch : Nat := 1024

/-- `config::MAX_ROUTER_HOPS`. -/
def maxRouterHops : Nat := 8

structure ForwardPass where
  router : Router
  /-- The walk starts behind the cursor and stops at the head read at the start of the pass. -/
  cursor : Nat
  srcHead : Nat
  /-- The config of the destination, for the back-pressure check. -/
  config : TopicConfig
  /-- The keys present in the destination of an exactly-once router. -/
  keys : List String
  now : Int

structure ForwardWalk where
  toAppend : List StoredRecord := []
  consumed : Nat := 0
  forwarded : Nat := 0
  deferred : Bool := false

inductive Visit where
  /-- Missing, dead, too often forwarded, filtered out, or impossible to rebuild. -/
  | consume
  /-- An exactly-once router has forwarded it before. -/
  | present
  /-- The cursor stays in front of it. -/
  | defer
  | copy (r : StoredRecord)

namespace ForwardPass

def exactlyOnce (p : ForwardPass) : Bool := p.router.guarantee == .exactlyOnce

def batchEnd (p : ForwardPass) : Nat := min p.srcHead (p.cursor + routerBatch)

def seqs (p : ForwardPass) : List Nat := List.range' (p.cursor + 1) (p.batchEnd - p.cursor)

variable (S : Serde Blob) (resolve : Nat → Value × Option Value)

/-- The copy of a live record, or what stands in its way. -/
def copyRecord (p : ForwardPass) (source dest : TopicState) (w : ForwardWalk) (seq : Nat)
    (r : StoredRecord) : Visit :=
  let node := if p.router.preserveNode then r.node else none
  let tag := if p.router.preserveTag then r.tag else none
  let key := routerIdempotencyKey p.router source seq
  if p.exactlyOnce ∧ key ∈ p.keys then .present
  else
    let meta? := if p.exactlyOnce then withRouterIdempotencyMeta r.meta key p.router source seq
      else r.meta
    match buildStoredOwned S r.data tag node meta? p.now with
    | .error _ => if p.exactlyOnce then .defer else .consume
    | .ok sr =>
      -- the hop count is a `u8`
      let sr := { sr with hops := min 255 (r.hops + 1) }
      if p.config.discard = .reject ∧
          evictionAdmit p.config.discard p.config.capRecords p.config.capBytes
            (dest.liveCount + w.toAppend.length)
            (dest.bytesRetained + (w.toAppend.map (·.bytes)).sum) 1 sr.bytes = .reject then .defer
      else .copy sr

def visitSource (p : ForwardPass) (source dest : TopicState) (w : ForwardWalk) (seq : Nat) :
    Visit :=
  match source.forwardLookup resolve seq with
  | none => .consume
  | some (_, false) => .consume
  | some (r, true) =>
    if r.hops ≥ maxRouterHops then .consume
    else if !TopicState.takesTag p.router.filter r.tag then .consume
    else p.copyRecord S source dest w seq r

/-- The effect of a round: a deferred record ends the walk. -/
def note (w : ForwardWalk) : Visit → ForwardWalk
  | .consume => { w with consumed := w.consumed + 1 }
  | .present => { w with consumed := w.consumed + 1, forwarded := w.forwarded + 1 }
  | .defer => { w with deferred := true }
  | .copy r =>
    { w with
      toAppend := w.toAppend ++ [r]
      consumed := w.consumed + 1
      forwarded := w.forwarded + 1 }

def visit (p : ForwardPass) (source dest : TopicState) (w : ForwardWalk) (seq : Nat) :
    ForwardWalk :=
  if w.deferred then w else note w (p.visitSource S resolve source dest w seq)

def Whole (w : ForwardWalk) : Prop := ∀ r ∈ w.toAppend, r.deleted = false

variable {S resolve}

variable {p : ForwardPass} {source dest : TopicState} {w : ForwardWalk} {seq : Nat}
  {r : StoredRecord}

theorem deleted_of_copyRecord {r r' : StoredRecord}
    (h : p.copyRecord S source dest w seq r = .copy r') :
    r'.deleted = false := by
  unfold copyRecord at h
  simp only at h
  split at h
  · cases h
  · split at h
    · split at h <;> cases h
    · rename_i sr hsr
      split at h
      · cases h
      · cases h
        have := deleted_of_buildStoredOwned hsr
        exact this

theorem deleted_of_visitSource (h : p.visitSource S resolve source dest w seq = .copy r) :
    r.deleted = false := by
  unfold visitSource at h
  split at h
  · cases h
  · cases h
  · split at h
    · cases h
    · split at h
      · cases h
      · exact deleted_of_copyRecord h

theorem Whole.visit (h : Whole w) (seq : Nat) : Whole (p.visit S resolve source dest w seq) := by
  unfold ForwardPass.visit
  split
  · exact h
  · cases hv : p.visitSource S resolve source dest w seq with
    | copy r =>
      intro r' hr'
      rcases mem_append.mp hr' with hr' | hr'
      · exact h r' hr'
      · cases mem_singleton.mp hr'
        exact deleted_of_visitSource hv
    | _ => exact h

theorem whole_foldl_visit (p : ForwardPass) (source dest : TopicState) (seqs : List Nat) :
    Whole (seqs.foldl (p.visit S resolve source dest) {}) :=
  foldlRecOn seqs _ nofun fun _ hw seq _ => hw.visit seq

end ForwardPass

/-! ## A pass, and the passes of a recovery -/

/-- A source topic, the topic its routers feed, and these routers. -/
structure Routed where
  source : TopicState
  dest : TopicState
  routers : RouterGraph

namespace Routed

/-- How many records in front of the cursor the source has lost. -/
def trimmed (source : TopicState) (cursor : Nat) : Nat := source.evictEarliestSeq - 1 - cursor

variable (S : Serde Blob) (resolve : Nat → Nat → Value × Option Value)

/-- The clamp of the cursor: one hole in the destination for every lost record. -/
def noteTrims (x : Routed) (name : String) (cursor : Nat) : Routed × Nat :=
  let n := trimmed x.source cursor
  if n = 0 then (x, cursor)
  else
    ({ x with
      dest := TopicState.noteSourceTrim^[n] x.dest
      routers := x.routers.noteForwarded name (cursor + n) n }, cursor + n)

def existingKeys (router : Router) (dest : TopicState) : List String :=
  if router.guarantee = .exactlyOnce then
    dest.routerDestIdempotencyKeys (resolve dest.topicId)
  else []

/-- `advance_router` where nothing else runs and there is no WAL to write to: the pass of a
recovery.  Returns the number of source records consumed. -/
def advanceRouter (x : Routed) (name : String) (now : Int) : Routed × Nat :=
  match x.routers.find name with
  | none => (x, 0)
  | some e =>
    let x := { x with source := x.source.enforceRetention now }
    if e.cursor ≥ x.source.headSeq then (x, 0)
    else
      let (x, cursor) := x.noteTrims name e.cursor
      let config := x.dest.config
      let x := if config.discard = .reject then
          { x with dest := x.dest.enforceRetention now }
        else x
      let p : ForwardPass :=
        ⟨e.router, cursor, x.source.headSeq, config, existingKeys resolve e.router x.dest, now⟩
      let w := p.seqs.foldl (p.visit S (resolve x.source.topicId) x.source x.dest) {}
      let x := if w.toAppend.isEmpty then x
        else { x with dest := (x.dest.append w.toAppend).enforceRetention now }
      if w.consumed > 0 then
        ({ x with routers := x.routers.noteForwarded name (cursor + w.consumed) w.forwarded },
          w.consumed)
      else (x, w.consumed)

/-- The inner loop of `reforward_routers_on_recovery`: advance one router until it consumes
nothing.  The loop carries how often the clock was read, and the progress of the pass. -/
def drain (clock : Nat → Int) (name : String) : Nat → Routed × Nat × Nat → Routed × Nat × Nat
  | 0, st => st
  | rounds + 1, (x, reads, progressed) =>
    let (x, n) := x.advanceRouter S resolve name (clock reads)
    if n = 0 then (x, reads + 1, progressed)
    else drain clock name rounds (x, reads + 1, progressed + n)

/-- The bound on the inner loop: it is left when the guard has passed a million. -/
def drainRounds : Nat := 1000001

/-- The outer loop: pass after pass over the routers, until one makes no progress. -/
def passes (clock : Nat → Int) (names : List String) : Nat → Routed × Nat → Routed × Nat
  | 0, st => st
  | n + 1, (x, reads) =>
    let (x, reads, progressed) :=
      names.foldl (fun st name => drain S resolve clock name drainRounds st) (x, reads, 0)
    if progressed = 0 then (x, reads) else passes clock names n (x, reads)

def passRounds : Nat := 65

/-- `reforward_routers_on_recovery`. -/
def reforward (clock : Nat → Int) (x : Routed) : Routed :=
  (passes S resolve clock (x.routers.entries.map (·.router.name)) passRounds (x, 0)).1

variable {S resolve}

variable {x : Routed} {P : TopicState → Prop} {name : String} {now : Int}

theorem reforward_induct {P : Routed → Prop}
    (hadvance : ∀ x name now, P x → P (x.advanceRouter S resolve name now).1) (clock : Nat → Int)
    (hx : P x) : P (x.reforward S resolve clock) := by
  have hdrain : ∀ name rounds (st : Routed × Nat × Nat), P st.1 →
      P (drain S resolve clock name rounds st).1 := by
    intro name rounds
    induction rounds with
    | zero => exact fun st hst => hst
    | succ rounds ih =>
      rintro ⟨x, reads, progressed⟩ hst
      simp only [drain]
      split
      · exact hadvance x name _ hst
      · exact ih _ (hadvance x name _ hst)
  have hpasses : ∀ names n (st : Routed × Nat), P st.1 →
      P (passes S resolve clock names n st).1 := by
    intro names n
    induction n with
    | zero => exact fun st hst => hst
    | succ n ih =>
      rintro ⟨x, reads⟩ hst
      have hround : P (names.foldl (fun st name => drain S resolve clock name drainRounds st)
          (x, reads, 0)).1 :=
        foldlRecOn (motive := fun st => P st.1) names _ hst
          fun st hst name _ => hdrain name _ st hst
      simp only [passes]
      split
      · exact hround
      · exact ih _ hround
  exact hpasses _ _ _ hx

/-! ### What a pass does to the topics -/

theorem advanceRouter_source (x : Routed) (name : String) (now : Int) :
    (x.advanceRouter S resolve name now).1.source = x.source ∨
      (x.advanceRouter S resolve name now).1.source = x.source.enforceRetention now := by
  unfold advanceRouter
  split
  · exact .inl rfl
  · right
    simp only
    split
    · rfl
    · simp only [noteTrims]
      repeat' split
      all_goals rfl

/-- How many holes the pass of a router appends to the destination. -/
def trims (x : Routed) (name : String) (now : Int) : Nat :=
  match x.routers.find name with
  | none => 0
  | some e =>
    if e.cursor ≥ (x.source.enforceRetention now).headSeq then 0
    else trimmed (x.source.enforceRetention now) e.cursor

/-- **The destination in a pass**: first the holes; what holds behind them, and retention and
appends keep, holds after the pass. -/
theorem advanceRouter_dest_of_trims
    (hholes : P (TopicState.noteSourceTrim^[x.trims name now] x.dest))
    (hretain : ∀ b, P b → P (b.enforceRetention now))
    (happend : ∀ b rs, (∀ r ∈ rs, r.deleted = false) → P b → P (b.append rs)) :
    P (x.advanceRouter S resolve name now).1.dest := by
  unfold trims at hholes
  unfold advanceRouter
  cases hfind : x.routers.find name with
  | none =>
    rw [hfind] at hholes
    exact hholes
  | some e =>
    simp only [hfind] at hholes ⊢
    split
    · rename_i hcursor
      rw [if_pos hcursor] at hholes
      exact hholes
    · rename_i hcursor
      rw [if_neg hcursor] at hholes
      -- the clamp of the cursor
      have htrims : P (noteTrims { x with source := x.source.enforceRetention now } name
          e.cursor).1.dest := by
        unfold noteTrims
        simp only
        split
        · rename_i hn
          rw [hn] at hholes
          exact hholes
        · exact hholes
      generalize noteTrims { x with source := x.source.enforceRetention now } name e.cursor = y
        at htrims
      have hfinish : ∀ (y : Routed) (n : Nat) (g : RouterGraph), P y.dest →
          P (if n > 0 then ({ y with routers := g }, n) else (y, n)).1.dest := by
        intro y n g hy
        split <;> exact hy
      apply hfinish
      -- retention of a rejecting destination, then the batch
      generalize hz : (if y.1.dest.config.discard = Discard.reject then
        { y.1 with dest := y.1.dest.enforceRetention now } else y.1) = z
      have hz' : P z.dest := by
        rw [← hz]
        split
        · exact hretain _ htrims
        · exact htrims
      split
      · exact hz'
      · exact hretain _ (happend _ _ (ForwardPass.whole_foldl_visit _ _ _ _) hz')

theorem advanceRouter_dest (htrim : ∀ e, x.routers.find name = some e →
      trimmed (x.source.enforceRetention now) e.cursor ≠ 0 → ∀ b, P b → P b.noteSourceTrim)
    (hretain : ∀ b, P b → P (b.enforceRetention now))
    (happend : ∀ b rs, (∀ r ∈ rs, r.deleted = false) → P b → P (b.append rs)) (hx : P x.dest) :
    P (x.advanceRouter S resolve name now).1.dest := by
  refine advanceRouter_dest_of_trims ?_ hretain happend
  unfold trims
  cases hfind : x.routers.find name with
  | none => exact hx
  | some e =>
    simp only
    split
    · exact hx
    · by_cases hn : trimmed (x.source.enforceRetention now) e.cursor = 0
      · rw [hn]
        exact hx
      · exact Function.Iterate.rec P hx (htrim e hfind hn) _

end Routed

end Topics
