import Topics.Types
import Mathlib.Data.List.Sort

/-!
# The per-topic record index

`TopicIndex` (`engine/topic_state.rs`): a contiguous deque of records offset by `base_seq`,
so that slot `i` holds seq `base_seq + i`, together with the tag index used by match
deletes.  A record deleted in the middle keeps its slot as a hole; only the front is ever
popped.

The lemmas describe each mutation by what it does to `get` and to `tail` (the seq the next
append is given), and later modules never unfold the operations themselves.
-/

namespace Topics

open List Option

structure StoredRecord where
  ts : Int
  node : Option String
  tag : Option String
  data : Value
  «meta» : Option Value
  bytes : Nat
  deleted : Bool
  payloadResident : Bool
  hops : Nat

/-- A record that carries nothing but a tag, for concrete runs. -/
def StoredRecord.plain (tag : Option String) : StoredRecord where
  ts := 0
  node := none
  tag := tag
  data := .null
  «meta» := none
  bytes := 1
  deleted := false
  payloadResident := true
  hops := 0

/-- `deleted_hole`: the tombstone slot that keeps `seq - base_seq` indexing dense. -/
def deletedHole : StoredRecord where
  ts := 0
  node := none
  tag := none
  data := .null
  «meta» := none
  bytes := 0
  deleted := true
  payloadResident := true
  hops := 0

/-- What `mark_deleted` leaves of a record: payload and tag freed, bytes zeroed. -/
def StoredRecord.markDeleted (r : StoredRecord) : StoredRecord :=
  { r with tag := none, deleted := true, bytes := 0, data := .null, «meta» := none }

@[simp] theorem StoredRecord.markDeleted_deleted (r : StoredRecord) :
    r.markDeleted.deleted = true := rfl

/-- The tag index: `tag → ascending live seqs`, a `BTreeMap` in the source. -/
abbrev TagIndex := Std.TreeMap String (List Nat)

namespace TagIndex

/-- `index_tag`: appends are monotone in seq, so a push keeps the posting list ascending. -/
def indexTag (m : TagIndex) (seq : Nat) (tag : String) : TagIndex :=
  m.insert tag (m.getD tag [] ++ [seq])

/-- `unindex_tag`: the binary search of the source finds `seq` in an ascending posting list
exactly when it is there; an emptied list is dropped. -/
def unindexTag (m : TagIndex) (tag : String) (seq : Nat) : TagIndex :=
  match m[tag]? with
  | none => m
  | some v => if (v.erase seq).isEmpty then m.erase tag else m.insert tag (v.erase seq)

/-- Prune the postings of the records `rs`, the first of which sits at `seq`. -/
def unindexAll (m : TagIndex) (seq : Nat) : List StoredRecord → TagIndex
  | [] => m
  | r :: rs =>
    unindexAll (match r.tag with | some t => unindexTag m t seq | none => m) (seq + 1) rs

theorem getElem?_indexTag (m : TagIndex) (seq : Nat) (tag t : String) :
    (indexTag m seq tag)[t]? = if t = tag then some (m.getD tag [] ++ [seq]) else m[t]? := by
  unfold indexTag
  rw [Std.TreeMap.getElem?_insert]
  by_cases h : t = tag
  · simp [h]
  · simp [h, Ne.symm h]

end TagIndex

structure TopicIndex where
  baseSeq : Nat
  records : List StoredRecord
  tagIndex : TagIndex
  deleteBelow : Nat

namespace TopicIndex

def new (baseSeq : Nat) : TopicIndex where
  baseSeq := baseSeq
  records := []
  tagIndex := ∅
  deleteBelow := 0

/-- The seq just past the deque: what `stage_append` assigns next. -/
def tail (ix : TopicIndex) : Nat := ix.baseSeq + ix.records.length

/-- Lookup a record by seq, if physically present. -/
def get (ix : TopicIndex) (seq : Nat) : Option StoredRecord :=
  if seq < ix.baseSeq then none else ix.records[seq - ix.baseSeq]?

/-- The record at `seq`, when it is present and not deleted. -/
def live (ix : TopicIndex) (seq : Nat) : Option StoredRecord :=
  (ix.get seq).filter fun r => !r.deleted

/-- One iteration of `stage_append`: push a record at the tail and index its tag. -/
def push (ix : TopicIndex) (r : StoredRecord) : TopicIndex :=
  { ix with
    records := ix.records ++ [r]
    tagIndex := match r.tag with
      | some t => TagIndex.indexTag ix.tagIndex ix.tail t
      | none => ix.tagIndex }

/-- The loop of `stage_append`. -/
def pushAll (ix : TopicIndex) (rs : List StoredRecord) : TopicIndex := rs.foldl push ix

/-- `matching_live_seqs`: a point lookup for `Eq`, a scan of the keys from the prefix on for
`Glob`; only seqs below `bound`, ascending. -/
def matchingLiveSeqs (ix : TopicIndex) (f : Filter) (bound : Nat) : List Nat :=
  let postings : List (List Nat) := match f.op with
    | .eq => [ix.tagIndex.getD f.value []]
    | .glob =>
      let keys := (Std.TreeMap.toList ix.tagIndex).dropWhile fun (k, _) => k < f.value
      (keys.takeWhile fun (k, _) => startsWith k f.value).map Prod.snd
  ((postings.flatMap id).filter (· < bound)).insertionSort (· ≤ ·)

/-- `drain_front`: drop the oldest `n` slots and prune their postings.  The second component
counts the popped slots that were still live. -/
def drainFront (ix : TopicIndex) (n : Nat) : TopicIndex × Nat :=
  let n := min n ix.records.length
  let popped := ix.records.take n
  ({ ix with
      baseSeq := ix.baseSeq + n
      records := ix.records.drop n
      tagIndex := ix.tagIndex.unindexAll ix.baseSeq popped },
    popped.countP fun r => !r.deleted)

/-- `mark_deleted`: free the slot at `seq` if it is live, returning the bytes freed. -/
def markDeleted (ix : TopicIndex) (seq : Nat) : TopicIndex × Option Nat :=
  match ix.get seq with
  | none => (ix, none)
  | some r =>
    if r.deleted then (ix, none)
    else
      ({ ix with
          records := ix.records.set (seq - ix.baseSeq) r.markDeleted
          tagIndex := match r.tag with
            | some t => ix.tagIndex.unindexTag t seq
            | none => ix.tagIndex },
        some r.bytes)

/-- `rollback_staged`: pop the tail back to `preLen` slots, pruning tag postings. -/
def truncate (ix : TopicIndex) (preLen : Nat) : TopicIndex :=
  { ix with
    records := ix.records.take preLen
    tagIndex := ix.tagIndex.unindexAll (ix.baseSeq + preLen) (ix.records.drop preLen) }

/-! ## Lookup -/

@[simp] theorem get_new (b seq : Nat) : (new b).get seq = none := by
  simp [get, new]

@[simp] theorem tail_new (b : Nat) : (new b).tail = b := by
  simp [tail, new]

variable {ix : TopicIndex} {seq : Nat} {r : StoredRecord}

theorem mem_records_of_get (h : ix.get seq = some r) : r ∈ ix.records := by
  unfold get at h
  split at h
  · cases h
  · exact mem_of_getElem? h

theorem base_le_of_get (h : ix.get seq = some r) : ix.baseSeq ≤ seq := by
  unfold get at h
  split at h
  · cases h
  · omega

theorem lt_tail_of_get (h : ix.get seq = some r) : seq < ix.tail := by
  have hb := base_le_of_get h
  unfold get at h
  rw [if_neg (by omega)] at h
  have := (List.getElem?_eq_some_iff.mp h).1
  unfold tail
  omega

theorem get_eq_none_of_tail_le (h : ix.tail ≤ seq) :
    ix.get seq = none := by
  cases hg : ix.get seq with
  | none => rfl
  | some r => exact absurd (lt_tail_of_get hg) (by omega)

theorem live_eq_none_of_tail_le (h : ix.tail ≤ seq) :
    ix.live seq = none := by
  simp [live, get_eq_none_of_tail_le h]

theorem live_eq_some :
    ix.live seq = some r ↔ ix.get seq = some r ∧ r.deleted = false := by
  simp [live, filter_eq_some_iff]

/-! ## Appending -/

@[simp] theorem push_baseSeq (ix : TopicIndex) (r : StoredRecord) :
    (ix.push r).baseSeq = ix.baseSeq := rfl

@[simp] theorem push_records (ix : TopicIndex) (r : StoredRecord) :
    (ix.push r).records = ix.records ++ [r] := rfl

@[simp] theorem push_deleteBelow (ix : TopicIndex) (r : StoredRecord) :
    (ix.push r).deleteBelow = ix.deleteBelow := rfl

@[simp] theorem tail_push (ix : TopicIndex) (r : StoredRecord) :
    (ix.push r).tail = ix.tail + 1 := by
  simp [tail]
  omega

theorem get_push (ix : TopicIndex) (r : StoredRecord) (seq : Nat) :
    (ix.push r).get seq = if seq = ix.tail then some r else ix.get seq := by
  unfold get
  simp only [push_baseSeq, push_records]
  by_cases hb : seq < ix.baseSeq
  · have : seq ≠ ix.tail := by unfold tail; omega
    simp [hb, this]
  · simp only [hb, if_false]
    by_cases ht : seq = ix.tail
    · subst ht
      simp [tail]
    · rw [if_neg ht, getElem?_append]
      split
      · rfl
      · rename_i hlt
        unfold tail at ht
        rw [getElem?_eq_none (by simp; omega), getElem?_eq_none (by omega)]

theorem live_push (ix : TopicIndex) (r : StoredRecord) (s : Nat) :
    (ix.push r).live s =
      if s = ix.tail then (if r.deleted then none else some r) else ix.live s := by
  unfold live
  rw [get_push]
  by_cases hs : s = ix.tail
  · cases hd : r.deleted <;> simp [hs, hd, filter]
  · simp [hs]

@[simp] theorem pushAll_nil (ix : TopicIndex) : ix.pushAll [] = ix := rfl

theorem pushAll_cons (ix : TopicIndex) (r : StoredRecord) (rs : List StoredRecord) :
    ix.pushAll (r :: rs) = (ix.push r).pushAll rs := rfl

@[simp] theorem pushAll_baseSeq (ix : TopicIndex) (rs : List StoredRecord) :
    (ix.pushAll rs).baseSeq = ix.baseSeq := by
  induction rs generalizing ix with
  | nil => rfl
  | cons r rs ih => rw [pushAll_cons, ih, push_baseSeq]

@[simp] theorem pushAll_deleteBelow (ix : TopicIndex) (rs : List StoredRecord) :
    (ix.pushAll rs).deleteBelow = ix.deleteBelow := by
  induction rs generalizing ix with
  | nil => rfl
  | cons r rs ih => rw [pushAll_cons, ih, push_deleteBelow]

@[simp] theorem pushAll_records (ix : TopicIndex) (rs : List StoredRecord) :
    (ix.pushAll rs).records = ix.records ++ rs := by
  induction rs generalizing ix with
  | nil => simp
  | cons r rs ih => rw [pushAll_cons, ih, push_records]; simp

@[simp] theorem tail_pushAll (ix : TopicIndex) (rs : List StoredRecord) :
    (ix.pushAll rs).tail = ix.tail + rs.length := by
  simp [tail]
  omega

theorem get_pushAll (ix : TopicIndex) (rs : List StoredRecord) (seq : Nat) :
    (ix.pushAll rs).get seq =
      if seq < ix.tail then ix.get seq else rs[seq - ix.tail]? := by
  unfold get
  simp only [pushAll_baseSeq, pushAll_records]
  by_cases hb : seq < ix.baseSeq
  · have : seq < ix.tail := by unfold tail; omega
    simp [hb, this]
  · simp only [hb, if_false]
    by_cases ht : seq < ix.tail
    · rw [if_pos ht, getElem?_append_left (by unfold tail at ht; omega)]
    · rw [if_neg ht, getElem?_append_right (by unfold tail at ht; omega)]
      congr 1
      unfold tail
      omega

theorem live_pushAll (ix : TopicIndex) (rs : List StoredRecord) (q : Nat) :
    (ix.pushAll rs).live q =
      if q < ix.tail then ix.live q else rs[q - ix.tail]?.filter fun r => !r.deleted := by
  unfold live
  rw [get_pushAll]
  split <;> rfl

theorem live_pushAll_of_live {q : Nat} (h : ix.live q = some r) (rs : List StoredRecord) :
    (ix.pushAll rs).live q = some r := by
  rw [live_pushAll, if_pos (lt_tail_of_get (live_eq_some.mp h).1)]
  exact h

theorem live_pushAll_stored {rs : List StoredRecord} {n : Nat} (hr : rs[n]? = some r)
    (hlive : r.deleted = false) : (ix.pushAll rs).live (ix.tail + n) = some r := by
  rw [live_pushAll, if_neg (by omega), Nat.add_sub_cancel_left, hr]
  simp [hlive]

theorem live_pushAll_holes (ix : TopicIndex) (n s : Nat) :
    (ix.pushAll (List.replicate n deletedHole)).live s = ix.live s := by
  induction n generalizing ix with
  | zero => rfl
  | succ n ih =>
    rw [replicate_succ, pushAll_cons, ih, live_push]
    split
    · rename_i hs
      rw [hs]
      simp [deletedHole, live_eq_none_of_tail_le (le_refl ix.tail)]
    · rfl

/-! ## Deleting and draining -/

@[simp] theorem markDeleted_baseSeq (ix : TopicIndex) (seq : Nat) :
    (ix.markDeleted seq).1.baseSeq = ix.baseSeq := by
  unfold markDeleted
  split
  · rfl
  · split <;> rfl

@[simp] theorem markDeleted_deleteBelow (ix : TopicIndex) (seq : Nat) :
    (ix.markDeleted seq).1.deleteBelow = ix.deleteBelow := by
  unfold markDeleted
  split
  · rfl
  · split <;> rfl

@[simp] theorem markDeleted_length (ix : TopicIndex) (seq : Nat) :
    (ix.markDeleted seq).1.records.length = ix.records.length := by
  unfold markDeleted
  split
  · rfl
  · split
    · rfl
    · simp

@[simp] theorem tail_markDeleted (ix : TopicIndex) (seq : Nat) :
    (ix.markDeleted seq).1.tail = ix.tail := by
  simp [tail]

theorem get_markDeleted_of_ne (ix : TopicIndex) {seq s : Nat} (h : s ≠ seq) :
    (ix.markDeleted seq).1.get s = ix.get s := by
  unfold markDeleted
  split
  · rfl
  · rename_i r hr
    split
    · rfl
    · have hb := base_le_of_get hr
      unfold get
      simp only
      split
      · rfl
      · rw [getElem?_set_ne (by omega)]

theorem get_markDeleted_self (ix : TopicIndex) (seq : Nat) :
    (ix.markDeleted seq).1.get seq =
      (ix.get seq).map fun r => if r.deleted then r else r.markDeleted := by
  unfold markDeleted
  split
  · rename_i h
    simp [h]
  · rename_i r hr
    have hb := base_le_of_get hr
    have ht := lt_tail_of_get hr
    split
    · rename_i hd
      simp [hr, hd]
    · rename_i hd
      simp only [hr, map_some, hd, if_false, Bool.false_eq_true]
      unfold get
      simp only
      rw [if_neg (by omega), getElem?_set_self (by unfold tail at ht; omega)]

theorem live_markDeleted (ix : TopicIndex) (seq s : Nat) :
    (ix.markDeleted seq).1.live s = if s = seq then none else ix.live s := by
  by_cases h : s = seq
  · subst h
    rw [if_pos rfl]
    unfold live
    rw [get_markDeleted_self]
    cases hg : ix.get s with
    | none => simp
    | some r =>
      by_cases hd : r.deleted <;> simp [filter, hd]
  · rw [if_neg h]
    unfold live
    rw [get_markDeleted_of_ne ix h]

@[simp] theorem drainFront_baseSeq (ix : TopicIndex) (n : Nat) :
    (ix.drainFront n).1.baseSeq = ix.baseSeq + min n ix.records.length := rfl

@[simp] theorem tail_drainFront (ix : TopicIndex) (n : Nat) :
    (ix.drainFront n).1.tail = ix.tail := by
  simp only [tail, drainFront, length_drop]
  omega

theorem get_drainFront (ix : TopicIndex) (n seq : Nat) :
    (ix.drainFront n).1.get seq =
      if seq < ix.baseSeq + min n ix.records.length then none else ix.get seq := by
  by_cases h : seq < ix.baseSeq + min n ix.records.length
  · rw [if_pos h]
    unfold get
    rw [if_pos (by simpa using h)]
  · rw [if_neg h]
    unfold get
    rw [if_neg (by simpa using h), if_neg (by omega)]
    simp only [drainFront, getElem?_drop]
    congr 1
    omega

theorem tail_truncate (ix : TopicIndex) (n : Nat) :
    (ix.truncate n).tail = ix.baseSeq + min n ix.records.length := by
  simp [tail, truncate]

theorem get_truncate (ix : TopicIndex) (n seq : Nat) :
    (ix.truncate n).get seq = if seq < ix.baseSeq + n then ix.get seq else none := by
  unfold get
  simp only [truncate, getElem?_take]
  by_cases hb : seq < ix.baseSeq
  · simp [hb]
  · simp only [hb, if_false]
    by_cases h : seq < ix.baseSeq + n
    · rw [if_pos h, if_pos (by omega)]
    · rw [if_neg h, if_neg (by omega)]

end TopicIndex

end Topics
