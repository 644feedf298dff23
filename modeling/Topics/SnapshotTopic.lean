import Topics.TopicState
import Topics.Tags

/-!
# Snapshot round trip of a topic

`capture_topic` and `restore_topic` (`engine/snapshot.rs`).  A snapshot stores the live
records of a topic only; the restore re-inserts each one at its seq and fills the gaps
between them with holes.  Nothing is inserted behind the last live record.
-/

namespace Topics

open TopicIndex Option TopicState List

structure SnapshotRecord (Blob : Type) where
  seq : Nat
  ts : Int
  node : Option String
  tag : Option String
  dataJson : Blob
  metaJson : Option Blob
  bytes : Nat

/-- `SnapshotTopic`.  The topic epoch is left out: it is the same for every topic. -/
structure SnapshotTopic (Blob : Type) where
  name : String
  topicId : Nat
  configJson : Blob
  baseSeq : Nat
  headSeq : Nat
  evictFloor : Nat
  expiryFloor : Nat
  deleteFloor : Nat
  deleteBelow : Nat
  bytesRetained : Nat
  liveCount : Nat
  records : List (SnapshotRecord Blob)
  sourceTrimFloor : Nat

variable {Blob : Type} (S : Serde Blob)

/-! ## Capture -/

/-- The slot loop of `capture_topic`: skip deleted slots, stop at the first live slot above
the published head. -/
def captureSlots (headSeq : Nat) : Nat → List StoredRecord → List (Nat × StoredRecord)
  | _, [] => []
  | seq, r :: rs =>
    if r.deleted then captureSlots headSeq (seq + 1) rs
    else if seq > headSeq then []
    else (seq, r) :: captureSlots headSeq (seq + 1) rs

/-- The payload a reader of the slot sees: resident, or read back from its segment. -/
def slotPayload (resolve : Nat → Value × Option Value) (seq : Nat) (r : StoredRecord) :
    Value × Option Value :=
  if r.payloadResident then (r.data, r.meta) else resolve seq

def captureRecord (resolve : Nat → Value × Option Value) (slot : Nat × StoredRecord) :
    SnapshotRecord Blob where
  seq := slot.1
  ts := slot.2.ts
  node := slot.2.node
  tag := slot.2.tag
  dataJson := S.toVec (slotPayload resolve slot.1 slot.2).1
  metaJson := (slotPayload resolve slot.1 slot.2).2.map S.toVec
  bytes := slot.2.bytes

/-- `capture_topic`; an ephemeral topic is captured as a shell that keeps only its head. -/
def captureTopic (resolve : Nat → Value × Option Value) (b : TopicState) :
    SnapshotTopic Blob :=
  if b.config.usesPersistentRecordStore then
    { name := b.name
      topicId := b.topicId
      configJson := S.configToVec b.config
      baseSeq := b.index.baseSeq
      headSeq := b.headSeq
      evictFloor := b.floors.evictFloor
      expiryFloor := b.floors.expiryFloor
      deleteFloor := b.floors.deleteFloor
      deleteBelow := b.index.deleteBelow
      bytesRetained := b.bytesRetained
      liveCount := b.liveCount
      records := (captureSlots b.headSeq b.index.baseSeq b.index.records).map
        (captureRecord S resolve)
      sourceTrimFloor := b.floors.sourceTrimFloor }
  else
    { name := b.name
      topicId := b.topicId
      configJson := S.configToVec b.config
      baseSeq := b.headSeq + 1
      headSeq := b.headSeq
      evictFloor := 0
      expiryFloor := 0
      deleteFloor := 0
      deleteBelow := 0
      bytesRetained := 0
      liveCount := 0
      records := []
      sourceTrimFloor := 0 }

@[simp] theorem captureTopic_name (resolve : Nat → Value × Option Value) (b : TopicState) :
    (captureTopic S resolve b).name = b.name := by
  unfold captureTopic
  split <;> rfl

@[simp] theorem captureTopic_topicId (resolve : Nat → Value × Option Value) (b : TopicState) :
    (captureTopic S resolve b).topicId = b.topicId := by
  unfold captureTopic
  split <;> rfl

/-! ## Restore -/

def restoreRecord (r : SnapshotRecord Blob) : StoredRecord where
  ts := r.ts
  node := r.node
  tag := r.tag
  data := (S.fromSlice r.dataJson).getD .null
  «meta» := r.metaJson.bind S.fromSlice
  bytes := r.bytes
  deleted := false
  payloadResident := true
  hops := 0

/-- One iteration of the restore loop after the gap is filled: the tag is indexed under the
recorded seq, the record goes to the back of the deque. -/
def restoreSlot (ix : TopicIndex) (r : SnapshotRecord Blob) : TopicIndex :=
  { ix with
    records := ix.records ++ [restoreRecord S r]
    tagIndex := match r.tag with
      | some t => TagIndex.indexTag ix.tagIndex r.seq t
      | none => ix.tagIndex }

/-- The restore loop; `next` is the seq the back of the deque stands for. -/
def restoreRecords : Nat → List (SnapshotRecord Blob) → TopicIndex → TopicIndex
  | _, [], ix => ix
  | next, r :: rs, ix =>
    restoreRecords (r.seq + 1) rs
      (restoreSlot S (ix.pushAll (List.replicate (r.seq - next) deletedHole)) r)

/-- `restore_topic`, with the config `restore` decoded for it. -/
def restoreTopic (sb : SnapshotTopic Blob) (config : TopicConfig) : TopicState :=
  let state := TopicState.new sb.name sb.topicId config seqBaseDefault
  { state with
    index := restoreRecords S sb.baseSeq sb.records
      { state.index with baseSeq := sb.baseSeq, deleteBelow := sb.deleteBelow }
    floors :=
      { evictFloor := sb.evictFloor
        expiryFloor := sb.expiryFloor
        deleteFloor := sb.deleteFloor
        sourceTrimFloor := sb.sourceTrimFloor }
    headSeq := sb.headSeq
    reservedHead := max state.reservedHead sb.headSeq
    bytesRetained := sb.bytesRetained
    liveCount := sb.liveCount }

/-- The config of a captured topic as `restore` reads it; a malformed one reads as default. -/
def SnapshotTopic.config (sb : SnapshotTopic Blob) : TopicConfig :=
  (S.configFromSlice sb.configJson).getD {}

/-! ## The rebuilt index -/

/-- What a captured slot is rebuilt as: the record with its payload made resident. -/
def resolvedRecord (resolve : Nat → Value × Option Value) (seq : Nat) (r : StoredRecord) :
    StoredRecord :=
  { r with
    data := (slotPayload resolve seq r).1
    «meta» := (slotPayload resolve seq r).2
    payloadResident := true
    hops := 0 }

theorem restoreRecord_captureRecord (hS : S.RoundTrips)
    (resolve : Nat → Value × Option Value) (seq : Nat) {r : StoredRecord}
    (hr : r.deleted = false) :
    restoreRecord S (captureRecord S resolve (seq, r)) = resolvedRecord resolve seq r := by
  unfold restoreRecord captureRecord resolvedRecord
  simp only [hS.value, getD_some, hr]
  cases (slotPayload resolve seq r).2 <;> simp [hS.value]

/-- The live record a deque `rs` starting at `seq` holds at `s`. -/
def liveAt (seq : Nat) (rs : List StoredRecord) (s : Nat) : Option StoredRecord :=
  if s < seq then none else rs[s - seq]?.filter fun r => !r.deleted

theorem TopicIndex.live_eq_liveAt (ix : TopicIndex) (s : Nat) :
    ix.live s = liveAt ix.baseSeq ix.records s := by
  unfold live get liveAt
  split <;> rfl

theorem liveAt_cons (seq : Nat) (r : StoredRecord) (rs : List StoredRecord) (s : Nat) :
    liveAt seq (r :: rs) s =
      if s = seq then (if r.deleted then none else some r) else liveAt (seq + 1) rs s := by
  unfold liveAt
  rcases Nat.lt_trichotomy s seq with hlt | rfl | hgt
  · rw [if_pos hlt, if_neg (by omega), if_pos (by omega)]
  · cases hd : r.deleted <;> simp [hd, Option.filter]
  · rw [if_neg (by omega), if_neg (by omega), if_neg (by omega),
      show s - seq = s - (seq + 1) + 1 by omega, getElem?_cons_succ]

/-- What the restore loop makes of the captured slots of `rs`, started on `ix` at `next`. -/
structure Rebuilt (resolve : Nat → Value × Option Value) (head seq : Nat)
    (rs : List StoredRecord) (next : Nat) (ix ix' : TopicIndex) : Prop where
  baseSeq : ix'.baseSeq = ix.baseSeq
  deleteBelow : ix'.deleteBelow = ix.deleteBelow
  tagExact : ix'.TagExact
  live : ∀ s, ix'.live s = if s < next then ix.live s
    else if s ≤ head then (liveAt seq rs s).map (resolvedRecord resolve s) else none
  tail : ix'.tail = next ∨ ∃ s, ix'.tail = s + 1 ∧ (ix'.live s).isSome

namespace Rebuilt

variable {resolve : Nat → Value × Option Value} {head seq next : Nat} {r : StoredRecord}
  {rs : List StoredRecord} {ix ix₁ ix' : TopicIndex}

private theorem stop (htail : ix.tail = next) (hix : ix.TagExact)
    (hnone : ∀ s, s ≤ head → liveAt seq rs s = none) :
    Rebuilt resolve head seq rs next ix ix := by
  refine ⟨rfl, rfl, hix, fun s => ?_, Or.inl htail⟩
  by_cases hs : s < next
  · rw [if_pos hs]
  · rw [if_neg hs, live_eq_none_of_tail_le (show ix.tail ≤ s by omega)]
    split
    · rename_i hhead
      rw [hnone s hhead]
      rfl
    · rfl

private theorem skip (hd : r.deleted = true)
    (h : Rebuilt resolve head (seq + 1) rs next ix ix') :
    Rebuilt resolve head seq (r :: rs) next ix ix' := by
  refine { h with live := fun s => ?_ }
  rw [h.live, liveAt_cons]
  by_cases hs : s = seq
  · simp [hs, hd, liveAt]
  · simp [hs]

private theorem slot (htail : ix.tail = next) (hle : next ≤ seq) (hhead : seq ≤ head)
    (hd : r.deleted = false) (hbase : ix₁.baseSeq = ix.baseSeq)
    (hbelow : ix₁.deleteBelow = ix.deleteBelow)
    (hslot : ∀ s, ix₁.live s =
      if s = seq then some (resolvedRecord resolve seq r) else ix.live s)
    (h : Rebuilt resolve head (seq + 1) rs (seq + 1) ix₁ ix') :
    Rebuilt resolve head seq (r :: rs) next ix ix' := by
  refine ⟨h.baseSeq.trans hbase, h.deleteBelow.trans hbelow, h.tagExact, fun s => ?_, ?_⟩
  · rw [h.live, hslot, liveAt_cons, hd]
    rcases Nat.lt_trichotomy s seq with hlt | rfl | hgt
    · rw [if_pos (show s < seq + 1 by omega), if_neg (show s ≠ seq by omega)]
      by_cases hn : s < next
      · rw [if_pos hn]
      · rw [if_neg hn, if_neg (show s ≠ seq by omega),
          live_eq_none_of_tail_le (show ix.tail ≤ s by omega)]
        simp [liveAt, show s < seq + 1 by omega]
    · simp [show ¬ s < next by omega, hhead]
    · rw [if_neg (show ¬ s < seq + 1 by omega), if_neg (show ¬ s < next by omega),
        if_neg (show s ≠ seq by omega)]
  · right
    rcases h.tail with ht | h'
    · refine ⟨seq, ht, ?_⟩
      rw [h.live, if_pos (by omega), hslot, if_pos rfl]
      rfl
    · exact h'

end Rebuilt

private theorem restoreSlot_eq_push {ix : TopicIndex} {r : SnapshotRecord Blob}
    (h : r.seq = ix.tail) : restoreSlot S ix r = ix.push (restoreRecord S r) := by
  unfold restoreSlot push
  rw [h]
  rfl

theorem restoreRecords_spec (hS : S.RoundTrips) (resolve : Nat → Value × Option Value)
    (head : Nat) (rs : List StoredRecord) {seq next : Nat} {ix : TopicIndex}
    (htail : ix.tail = next) (hle : next ≤ seq) (hix : ix.TagExact) :
    Rebuilt resolve head seq rs next ix
      (restoreRecords S next ((captureSlots head seq rs).map (captureRecord S resolve)) ix) := by
  induction rs generalizing seq next ix with
  | nil => exact Rebuilt.stop htail hix fun s _ => by simp [liveAt]
  | cons r rs ih =>
    cases hd : r.deleted with
    | true =>
      rw [captureSlots, if_pos hd]
      exact (ih htail (by omega) hix).skip hd
    | false =>
      rw [captureSlots, if_neg (by simp [hd])]
      by_cases hhead : seq > head
      · rw [if_pos hhead]
        refine Rebuilt.stop htail hix fun s hs => ?_
        simp [liveAt, show s < seq by omega]
      · rw [if_neg hhead, map_cons, restoreRecords]
        -- the slot lands on `seq`, behind the holes of the gap
        generalize hgap : ix.pushAll (replicate (seq - next) deletedHole) = gap
        have hgapTail : gap.tail = seq := by
          rw [← hgap, tail_pushAll, length_replicate, htail]
          omega
        have hgapExact : gap.TagExact := by
          rw [← hgap]
          exact hix.pushAll fun r' hr' _ => by rw [eq_of_mem_replicate hr']; rfl
        have hlive : (resolvedRecord resolve seq r).deleted = false := hd
        rw [show (captureRecord S resolve (seq, r)).seq = seq from rfl, hgap,
          restoreSlot_eq_push S hgapTail.symm, restoreRecord_captureRecord S hS resolve seq hd]
        have hrest := ih
          (show (gap.push (resolvedRecord resolve seq r)).tail = seq + 1 by
            rw [tail_push, hgapTail])
          le_rfl (hgapExact.push fun h => by rw [hlive] at h; cases h)
        refine hrest.slot htail hle (by omega) hd ?_ ?_ fun s => ?_
        · rw [push_baseSeq, ← hgap, pushAll_baseSeq]
        · rw [push_deleteBelow, ← hgap, pushAll_deleteBelow]
        · rw [live_push, hgapTail, ← hgap, live_pushAll_holes, hlive]
          rfl

/-! ## The round trip -/

/-- No batch is staged: every live slot is at or below the published head. -/
def TopicState.NoStaged (b : TopicState) : Prop :=
  ∀ s, (b.index.live s).isSome → s ≤ b.headSeq

theorem TopicState.noStaged_of_tail_le {b : TopicState} (h : b.index.tail ≤ b.headSeq + 1) :
    b.NoStaged := by
  intro s hs
  obtain ⟨r, hr⟩ := isSome_iff_exists.mp hs
  have := lt_tail_of_get (live_eq_some.mp hr).1
  omega

/-- What a restored topic `b'` must share with the topic `b` it was captured from. -/
structure SameTopic (resolve : Nat → Value × Option Value) (b b' : TopicState) : Prop where
  name : b'.name = b.name
  topicId : b'.topicId = b.topicId
  config : b'.config = b.config
  headSeq : b'.headSeq = b.headSeq
  floors : b'.floors = b.floors
  live : ∀ s, b'.index.live s = (b.index.live s).map (resolvedRecord resolve s)
  tagAscending : ∀ t, (b'.index.tagIndex.getD t []).Pairwise (· < ·)
  tagExact : ∀ t s, s ∈ b'.index.tagIndex.getD t [] ↔
    ∃ r, b.index.live s = some r ∧ r.tag = some t
  liveCount : b'.liveCount = b.liveCount
  bytesRetained : b'.bytesRetained = b.bytesRetained

/-- The record at the head is live, or nothing is live and the deque starts behind the head:
the two shapes in which no hole separates the last live record from the head. -/
def TopicState.TailLive (b : TopicState) : Prop :=
  (b.index.live b.headSeq).isSome ∨
    (∀ s, s ≤ b.headSeq → b.index.live s = none) ∧ b.index.baseSeq = b.headSeq + 1

/-- Capture a topic and rebuild it from the snapshot. -/
def snapshotTopic (resolve : Nat → Value × Option Value) (b : TopicState) : TopicState :=
  restoreTopic S (captureTopic S resolve b) ((captureTopic S resolve b).config S)

theorem snapshotTopic_topicId (resolve : Nat → Value × Option Value) (b : TopicState) :
    (snapshotTopic S resolve b).topicId = b.topicId :=
  captureTopic_topicId S resolve b

section RoundTrip

variable {S} (resolve : Nat → Value × Option Value) {b : TopicState}

theorem config_captureTopic (hS : S.RoundTrips) :
    (captureTopic S resolve b).config S = b.config := by
  unfold captureTopic SnapshotTopic.config
  split <;> simp [hS.config]

section

variable (hS : S.RoundTrips) (hp : b.config.usesPersistentRecordStore = true)

include hS hp

theorem rebuilt_snapshotTopic :
    Rebuilt resolve b.headSeq b.index.baseSeq b.index.records b.index.baseSeq
      { TopicIndex.new seqBaseDefault with
        baseSeq := b.index.baseSeq, deleteBelow := b.index.deleteBelow }
      (snapshotTopic S resolve b).index := by
  unfold snapshotTopic restoreTopic captureTopic
  simp only [hp, if_true]
  exact restoreRecords_spec S hS resolve _ _ (by simp [TopicIndex.tail, TopicIndex.new])
    le_rfl (fun t => by simp [TopicIndex.new, TopicIndex.tagged])

theorem live_snapshotTopic (s : Nat) : (snapshotTopic S resolve b).index.live s =
      if s ≤ b.headSeq then (b.index.live s).map (resolvedRecord resolve s) else none := by
  rw [(rebuilt_snapshotTopic resolve hS hp).live, b.index.live_eq_liveAt]
  split
  · rename_i hs
    simp [TopicIndex.live, TopicIndex.get, liveAt, hs]
  · rfl

theorem tail_snapshotTopic :
    (snapshotTopic S resolve b).index.tail = b.headSeq + 1 ↔ b.TailLive := by
  have hlive := live_snapshotTopic resolve hS hp
  have hreb := rebuilt_snapshotTopic resolve hS hp
  constructor
  · intro htail
    rcases hreb.tail with hbase | ⟨s, hs, hsome⟩
    · refine Or.inr ⟨fun s hs => ?_, by omega⟩
      rw [b.index.live_eq_liveAt]
      simp [liveAt, show s < b.index.baseSeq by omega]
    · have hsh : s = b.headSeq := by omega
      subst hsh
      rw [hlive, if_pos le_rfl] at hsome
      exact Or.inl (by simpa using hsome)
  · rintro (hhead | ⟨hnone, hbase⟩)
    · have hget : ((snapshotTopic S resolve b).index.live b.headSeq).isSome := by
        rw [hlive, if_pos le_rfl]
        simpa using hhead
      obtain ⟨r, hr⟩ := isSome_iff_exists.mp hget
      have hlt := lt_tail_of_get (live_eq_some.mp hr).1
      rcases hreb.tail with htail | ⟨s, hs, hsome⟩
      · have hge := base_le_of_get (live_eq_some.mp hr).1
        rw [hreb.baseSeq] at hge
        simp only at hge
        omega
      · rw [hlive] at hsome
        split at hsome
        · omega
        · cases hsome
    · rcases hreb.tail with htail | ⟨s, hs, hsome⟩
      · omega
      · rw [hlive] at hsome
        split at hsome
        · rename_i hle
          rw [hnone s hle] at hsome
          cases hsome
        · cases hsome

end

/-- **Snapshot round trip of a topic.**  Head, floors, live records, tag index and counters
survive; the next append continues at `head_seq + 1` iff no hole separates the last live
record from the head. -/
theorem sameTopic_snapshotTopic (hS : S.RoundTrips)
    (hp : b.config.usesPersistentRecordStore = true) (hb : b.NoStaged) :
    SameTopic resolve b (snapshotTopic S resolve b) ∧
      ((snapshotTopic S resolve b).index.tail = (snapshotTopic S resolve b).headSeq + 1 ↔
        b.TailLive) := by
  have hlive : ∀ s, (snapshotTopic S resolve b).index.live s =
      (b.index.live s).map (resolvedRecord resolve s) := by
    intro s
    rw [live_snapshotTopic resolve hS hp]
    split
    · rfl
    · rename_i hs
      cases hl : b.index.live s with
      | none => rfl
      | some r => exact absurd (hb s (by rw [hl]; rfl)) hs
  have hexact := (rebuilt_snapshotTopic resolve hS hp).tagExact
  have hcap : captureTopic S resolve b = _ := if_pos hp
  have hhead : (snapshotTopic S resolve b).headSeq = b.headSeq := by
    simp [snapshotTopic, restoreTopic, hcap]
  refine ⟨⟨?_, ?_, ?_, hhead, ?_, hlive, hexact.pairwise, fun t s => ?_, ?_, ?_⟩, ?_⟩
  · simp [snapshotTopic, restoreTopic, hcap, TopicState.new]
  · simp [snapshotTopic, restoreTopic, hcap, TopicState.new]
  · exact config_captureTopic resolve hS
  · simp [snapshotTopic, restoreTopic, hcap]
  · rw [hexact.mem_iff, hlive]
    simp [resolvedRecord]
  · simp [snapshotTopic, restoreTopic, hcap]
  · simp [snapshotTopic, restoreTopic, hcap]
  · rw [hhead]
    exact tail_snapshotTopic resolve hS hp

theorem sameTopic_snapshotTopic_append :
    let b := (TopicState.new "jobs" 1 {} 1).append [.plain none, .plain (some "a")]
    SameTopic (fun _ => (.null, none)) b (snapshotTopic Serde.identity (fun _ => (.null, none)) b)
      ∧ ((snapshotTopic Serde.identity (fun _ => (.null, none)) b).index.tail
          = (snapshotTopic Serde.identity (fun _ => (.null, none)) b).headSeq + 1 ↔ b.TailLive) :=
  sameTopic_snapshotTopic _ Serde.identity_roundTrips (by decide)
    (noStaged_of_tail_le (by decide))

end RoundTrip

/-- A topic after three appends and a match delete of the last record. -/
def tailDeletedTopic : TopicState :=
  ((TopicState.new "jobs" 1 {} 1).append
    [.plain none, .plain none, .plain (some "last")]).applyDelete
      none (some ⟨.eq, "last"⟩) (some 4) 0

/-- The restored topic stands at head 3 and yet assigns seq 3 to its next append: the seq of
the record that was acknowledged and then deleted. -/
theorem snapshotTopic_tailDeletedTopic :
    tailDeletedTopic.NoStaged ∧
    tailDeletedTopic.config.usesPersistentRecordStore = true ∧
    (snapshotTopic Serde.identity (fun _ => (.null, none)) tailDeletedTopic).headSeq = 3 ∧
    (snapshotTopic Serde.identity (fun _ => (.null, none)) tailDeletedTopic).index.tail = 3 ∧
    ∀ rs, ((snapshotTopic Serde.identity (fun _ => (.null, none))
      tailDeletedTopic).stageAppend rs).2.start = 3 := by
  have htail : (snapshotTopic Serde.identity (fun _ => (.null, none))
      tailDeletedTopic).index.tail = 3 := by decide
  exact ⟨noStaged_of_tail_le (by decide), by decide, by decide, htail,
    fun _ => htail⟩

end Topics
