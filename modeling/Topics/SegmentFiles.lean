import Topics.WalCodec

/-!
# Segment files

`storage/segment.rs`, byte for byte: a segment is a `.data` file with one checksummed frame per record
and an `.idx` file with one entry of fixed size per record.  A delete sets the last byte of the record's
frame in place (`flag_sealed_deleted`), which the checksum does not cover, and a recovery reads these
bytes back (`scan_ondisk_deleted`).  Lengths and offsets are stored in 16 and 32 bits.
-/

namespace Topics.Wire

open Lib Lib.Reader List Option

structure SegmentRecord where
  seq : UInt64
  ts : UInt64
  node : Option String
  tag : Option String
  data : List UInt8
  deriving DecidableEq

/-- `SEG_DEL_SENTINEL`; every other byte is that of a live record. -/
def delSentinel : UInt8 := 0xD5

namespace SegmentRecord

/-- Bit 0 a tag, bit 1 a node. -/
def flags (r : SegmentRecord) : UInt8 :=
  (if r.node.isSome then 2 else 0) ||| if r.tag.isSome then 1 else 0

def header (r : SegmentRecord) : List UInt8 :=
  [r.flags] ++ (writeU64 r.seq ++ (writeU64 r.ts ++ (leBytes 2 (inlineBytes r.node).length ++
    (leBytes 2 (inlineBytes r.tag).length ++ leBytes 4 r.data.length))))

/-- What the checksum covers. -/
def body (r : SegmentRecord) : List UInt8 :=
  r.header ++ (inlineBytes r.node ++ (inlineBytes r.tag ++ r.data))

end SegmentRecord

structure SegmentHeader where
  flags : UInt8
  seq : UInt64
  ts : UInt64
  nodeLen : Nat
  tagLen : Nat
  dataLen : Nat

def readSegmentHeader : Reader SegmentHeader := do
  let flags ← readU8
  let seq ← readU64
  let ts ← readU64
  let nodeLen ← le 2
  let tagLen ← le 2
  let dataLen ← le 4
  return ⟨flags, seq, ts, nodeLen, tagLen, dataLen⟩

/-- `parse_body`, with the texts of `SegmentError::Corrupt`. -/
def parseBody (h : List UInt8) : Except String SegmentRecord :=
  match readSegmentHeader.run h with
  | none => .error "frame body too short"
  | some (hd, body) =>
    if hd.nodeLen + hd.tagLen + hd.dataLen ≠ body.length then .error "internal length inconsistency"
    else
      match decodeInline (hd.flags &&& 2 != 0) (body.take hd.nodeLen),
        decodeInline (hd.flags &&& 1 != 0) ((body.drop hd.nodeLen).take hd.tagLen) with
      | none, _ => .error "node not utf-8"
      | some _, none => .error "tag not utf-8"
      | some node, some tag => .ok ⟨hd.seq, hd.ts, node, tag, body.drop (hd.nodeLen + hd.tagLen)⟩

/-- An entry of `.idx`. -/
structure SegmentEntry where
  offset : Nat
  len : Nat
  ts : UInt64
  flags : UInt8
  deriving DecidableEq

/-- `encode_idx_entry`: 17 bytes, padded to the stride. -/
def encodeIdxEntry (e : SegmentEntry) : List UInt8 :=
  leBytes 4 e.offset ++ (leBytes 4 e.len ++ (writeU64 e.ts ++ [e.flags])) ++ [0, 0, 0]

def readIdxEntry : Reader SegmentEntry := do
  let offset ← le 4
  let len ← le 4
  let ts ← readU64
  let flags ← readU8
  return ⟨offset, len, ts, flags⟩

/-- `idx_entry_at`. -/
def idxEntryAt (idx : List UInt8) (i : Nat) : Option SegmentEntry :=
  if idx.length < 20 * i + 20 then none else parse readIdxEntry ((idx.drop (20 * i)).take 20)

def lookup (idx : List UInt8) (startSeq seq : Nat) : Option SegmentEntry :=
  if seq < startSeq then none else idxEntryAt idx (seq - startSeq)

section Files

variable (crc : List UInt8 → UInt64)

/-- A frame with the given flag byte; `encode_data_frame` writes zero. -/
def dataFrame (r : SegmentRecord) (flag : UInt8) : List UInt8 :=
  leBytes 4 (r.body.length + 8 + 1) ++ (r.body ++ (writeU64 (crc r.body) ++ [flag]))

/-- `decode_data_frame_full`. -/
def decodeDataFrameFull (buf : List UInt8) : Except String (SegmentRecord × Bool) :=
  if buf.length < 4 then .error "shorter than frame_len prefix"
  else
    let frameLen := leNat (buf.take 4)
    let total := 4 + frameLen
    if buf.length < total then .error "frame_len overruns the slice"
    else if frameLen < 25 + 8 + 1 then .error "frame_len below the minimum"
    else
      let body := (buf.take (total - 9)).drop 4
      if leNat ((buf.take (total - 1)).drop (total - 9)) = (crc body).toNat then
        (parseBody body).map fun r => (r, buf[total - 1]? = some delSentinel)
      else .error "checksum mismatch"

structure SegmentBuilder where
  startSeq : Nat
  nextSeq : Nat
  data : List UInt8
  idx : List UInt8

def SegmentBuilder.push (b : SegmentBuilder) (r : SegmentRecord) : SegmentBuilder where
  startSeq := b.startSeq
  nextSeq := b.nextSeq + 1
  data := b.data ++ dataFrame crc r 0
  idx := b.idx ++ encodeIdxEntry
    ⟨b.data.length % 2 ^ 32, (dataFrame crc r 0).length % 2 ^ 32, r.ts, r.flags⟩

/-- A sealed segment: a builder that was given the records one after the other. -/
def buildSegment (startSeq : Nat) (rs : List SegmentRecord) : SegmentBuilder :=
  rs.foldl (SegmentBuilder.push crc) ⟨startSeq, startSeq, [], []⟩

/-- `flag_sealed_deleted` on the bytes of `.data`; an offset behind the end is refused. -/
def flagDeleted (startSeq : Nat) (idx data : List UInt8) (seq : Nat) : List UInt8 :=
  match lookup idx startSeq seq with
  | none => data
  | some e => data.set (e.offset + (e.len - 1)) delSentinel

/-- The frame at `seq`, as every reader of a segment finds it. -/
def readRecord (startSeq : Nat) (idx data : List UInt8) (seq : Nat) :
    Option (Except String (SegmentRecord × Bool)) :=
  (lookup idx startSeq seq).bind fun e =>
    if data.length < e.offset + e.len then none
    else some (decodeDataFrameFull crc ((data.drop e.offset).take e.len))

/-- `scan_ondisk_deleted` for one segment: a frame whose seq is not that of its entry is not trusted. -/
def scanDeleted (startSeq : Nat) (idx data : List UInt8) : List Nat :=
  (List.range' startSeq (idx.length / 20)).filter fun seq =>
    match readRecord crc startSeq idx data seq with
    | some (.ok (r, true)) => r.seq.toNat = seq
    | _ => false

/-! ## One frame -/

/-- The sizes a frame can hold: node and tag in 16 bits, the frame in 32. -/
structure SegmentRecord.Fits (r : SegmentRecord) : Prop where
  node : (inlineBytes r.node).length < 2 ^ 16
  tag : (inlineBytes r.tag).length < 2 ^ 16
  frame : r.body.length + 9 < 2 ^ 32

variable {r : SegmentRecord}

theorem SegmentRecord.length_body (r : SegmentRecord) : r.body.length =
    25 + (inlineBytes r.node).length + (inlineBytes r.tag).length + r.data.length := by
  simp only [body, header, writeU64, length_append, length_leBytes, length_singleton]
  omega

theorem parseBody_body (h : r.Fits) : parseBody r.body = .ok r := by
  have hframe := h.frame
  rw [r.length_body] at hframe
  have hread : Reads readSegmentHeader ⟨r.flags, r.seq, r.ts, (inlineBytes r.node).length,
      (inlineBytes r.tag).length, r.data.length⟩ r.header := by
    refine (reads_readU8 _).bind ((reads_readU64 _).bind ((reads_readU64 _).bind ((reads_le ?_).bind
      ((reads_le ?_).bind (reads_le ?_).map))))
    · exact h.node
    · exact h.tag
    · norm_num
      omega
  have hflags : (r.flags &&& 2 != 0) = r.node.isSome ∧ (r.flags &&& 1 != 0) = r.tag.isSome := by
    unfold SegmentRecord.flags
    cases r.node.isSome <;> cases r.tag.isSome <;> decide
  unfold parseBody SegmentRecord.body
  rw [hread]
  simp [hflags.1, hflags.2, decodeInline_inlineBytes, Nat.add_assoc, ← drop_drop]

theorem length_dataFrame (r : SegmentRecord) (flag : UInt8) :
    (dataFrame crc r flag).length = 4 + r.body.length + 9 := by
  simp only [dataFrame, writeU64, length_append, length_leBytes, length_singleton]
  omega

/-- **Round trip** of one frame, whatever its flag byte. -/
theorem decodeDataFrameFull_dataFrame (h : r.Fits) (flag : UInt8) :
    decodeDataFrameFull crc (dataFrame crc r flag) = .ok (r, flag = delSentinel) := by
  have hlen := length_dataFrame crc r flag
  have hmin := r.length_body
  generalize hL : leBytes 4 (r.body.length + 8 + 1) = len
  generalize hS : writeU64 (crc r.body) = stored
  have hlen4 : len.length = 4 := by rw [← hL, length_leBytes]
  have hstored : stored.length = 8 := by rw [← hS, writeU64, length_leBytes]
  have hbuf : dataFrame crc r flag = len ++ r.body ++ stored ++ [flag] := by
    rw [dataFrame, hL, hS, append_assoc, append_assoc]
  have hread : leNat ((dataFrame crc r flag).take 4) = r.body.length + 9 := by
    rw [hbuf, append_assoc, append_assoc, ← hlen4, take_left, ← hL, leNat_leBytes h.frame]
  have hcrc : leNat stored = (crc r.body).toNat := by
    rw [← hS, writeU64, leNat_leBytes (crc r.body).toNat_lt]
  -- the slices are the parts of the frame
  have hfront : 4 + (r.body.length + 9) - 9 = (len ++ r.body).length := by
    rw [length_append, hlen4]
    omega
  have hall : 4 + (r.body.length + 9) - 1 = (len ++ r.body ++ stored).length := by
    rw [length_append, length_append, hlen4, hstored]
    omega
  unfold decodeDataFrameFull
  rw [if_neg (by omega)]
  simp only [hread]
  rw [if_neg (by omega), if_neg (by omega), hbuf, hall, take_left, hfront, drop_left, append_assoc,
    take_left, ← hlen4, drop_left, hcrc, if_pos rfl, parseBody_body h, ← append_assoc]
  simp [Except.map]

/-- The flag is the last byte of its frame. -/
theorem set_dataFrame (r : SegmentRecord) (flag x : UInt8) (rest : List UInt8) :
    (dataFrame crc r flag ++ rest).set (4 + r.body.length + 8) x = dataFrame crc r x ++ rest := by
  have hlen : (leBytes 4 (r.body.length + 8 + 1) ++ (r.body ++ writeU64 (crc r.body))).length =
      4 + r.body.length + 8 := by
    simp only [writeU64, length_append, length_leBytes]
    omega
  simp only [dataFrame, ← append_assoc] at hlen ⊢
  rw [append_assoc, set_append_right _ _ hlen.le, hlen, Nat.sub_self]
  simp

/-! ## Whole files -/

/-- The frames of a segment, each with its flag byte. -/
def framesOf (fs : List (SegmentRecord × UInt8)) : List UInt8 :=
  fs.flatMap fun f => dataFrame crc f.1 f.2

/-- The entries of records whose frames start at `off`. -/
def entriesOf : Nat → List SegmentRecord → List SegmentEntry
  | _, [] => []
  | off, r :: rs =>
    ⟨off, 4 + r.body.length + 9, r.ts, r.flags⟩ :: entriesOf (off + (4 + r.body.length + 9)) rs

theorem framesOf_cons (f : SegmentRecord × UInt8) (fs : List (SegmentRecord × UInt8)) :
    framesOf crc (f :: fs) = dataFrame crc f.1 f.2 ++ framesOf crc fs := flatMap_cons

/-- The entry of a frame finds it, and its last byte. -/
theorem entriesOf_locate (fs : List (SegmentRecord × UInt8)) {pre : List UInt8} {i : Nat}
    {e : SegmentEntry} (he : (entriesOf pre.length (fs.map Prod.fst))[i]? = some e) :
    ∃ f, fs[i]? = some f ∧ e.offset + e.len ≤ (pre ++ framesOf crc fs).length ∧
      ((pre ++ framesOf crc fs).drop e.offset).take e.len = dataFrame crc f.1 f.2 ∧
      ∀ x, (pre ++ framesOf crc fs).set (e.offset + (e.len - 1)) x =
        pre ++ framesOf crc (fs.set i (f.1, x)) := by
  induction fs generalizing pre i with
  | nil => cases he
  | cons f fs ih =>
    have hlen := length_dataFrame crc f.1 f.2
    cases i with
    | zero =>
      cases he
      refine ⟨f, rfl, ?_, ?_, fun x => ?_⟩
      · simp only [framesOf_cons, length_append, hlen]
        omega
      · rw [drop_left, framesOf_cons, ← hlen, take_left]
      · rw [set_append_right _ _ (Nat.le_add_right ..), Nat.add_sub_cancel_left, framesOf_cons,
          set_cons_zero, framesOf_cons]
        exact congrArg (pre ++ ·) (set_dataFrame crc f.1 f.2 x _)
    | succ i =>
      -- the frames in front are part of what comes before
      rw [map_cons, entriesOf, getElem?_cons_succ, ← hlen, ← length_append] at he
      obtain ⟨g, hg, hend, hslice, hset⟩ := ih he
      refine ⟨g, hg, ?_, ?_, fun x => ?_⟩
      · rwa [framesOf_cons, ← append_assoc]
      · rw [framesOf_cons, ← append_assoc, hslice]
      · rw [framesOf_cons, ← append_assoc, hset, set_cons_succ, framesOf_cons, append_assoc]

theorem length_entriesOf (off : Nat) (rs : List SegmentRecord) :
    (entriesOf off rs).length = rs.length := by
  induction rs generalizing off with
  | nil => rfl
  | cons r rs ih => rw [entriesOf, length_cons, length_cons, ih]

theorem length_encodeIdxEntry (e : SegmentEntry) : (encodeIdxEntry e).length = 20 := by
  simp only [encodeIdxEntry, writeU64, length_append, length_leBytes, length_cons, length_nil]

theorem length_flatMap_encodeIdxEntry (es : List SegmentEntry) :
    (es.flatMap encodeIdxEntry).length = 20 * es.length := by
  induction es with
  | nil => rfl
  | cons e es ih =>
    rw [flatMap_cons, length_append, length_encodeIdxEntry, ih, length_cons]
    omega

theorem idxEntryAt_flatMap {es : List SegmentEntry}
    (h : ∀ e ∈ es, e.offset < 2 ^ 32 ∧ e.len < 2 ^ 32) (i : Nat) :
    idxEntryAt (es.flatMap encodeIdxEntry) i = es[i]? := by
  induction es generalizing i with
  | nil => rfl
  | cons e es ih =>
    have hstride := length_encodeIdxEntry e
    rw [flatMap_cons]
    cases i with
    | zero =>
      have hread : Reads readIdxEntry e (leBytes 4 e.offset ++ (leBytes 4 e.len ++
          (writeU64 e.ts ++ [e.flags]))) :=
        (reads_le (h e mem_cons_self).1).bind ((reads_le (h e mem_cons_self).2).bind
          ((reads_readU64 _).bind (reads_readU8 _).map))
      have htake : (encodeIdxEntry e ++ es.flatMap encodeIdxEntry).take 20 = encodeIdxEntry e := by
        rw [← hstride, take_left]
      rw [idxEntryAt, if_neg (by rw [length_append, hstride]; omega), Nat.mul_zero, drop_zero, htake,
        encodeIdxEntry, parse, hread]
      rfl
    | succ i =>
      rw [getElem?_cons_succ, ← ih (fun e' he' => h e' (mem_cons_of_mem e he')) i, idxEntryAt, idxEntryAt,
        show 20 * (i + 1) = (encodeIdxEntry e).length + 20 * i by rw [hstride]; omega, ← drop_drop,
        drop_left, length_append, hstride]
      congr 1
      exact propext ⟨fun _ => by omega, fun _ => by omega⟩

/-- What the builder leaves in the two files, if the offsets fit. -/
theorem foldl_push {rs : List SegmentRecord} (b : SegmentBuilder) :
    (rs.foldl (SegmentBuilder.push crc) b).data = b.data ++ framesOf crc (rs.map (·, 0)) ∧
      ((b.data ++ framesOf crc (rs.map (·, 0))).length < 2 ^ 32 →
        (rs.foldl (SegmentBuilder.push crc) b).idx =
            b.idx ++ (entriesOf b.data.length rs).flatMap encodeIdxEntry ∧
          ∀ e ∈ entriesOf b.data.length rs, e.offset < 2 ^ 32 ∧ e.len < 2 ^ 32) := by
  induction rs generalizing b with
  | nil => simp [framesOf, entriesOf]
  | cons r rs ih =>
    have hlen := length_dataFrame crc r 0
    have hpush : (b.push crc r).data = b.data ++ dataFrame crc r 0 := rfl
    obtain ⟨hdata, hidx⟩ := ih (b.push crc r)
    rw [hpush, append_assoc] at hdata hidx
    rw [foldl_cons, map_cons, framesOf_cons]
    refine ⟨hdata, fun hsize => ?_⟩
    obtain ⟨hentries, hsmall⟩ := hidx hsize
    have hfits : b.data.length < 2 ^ 32 ∧ 4 + r.body.length + 9 < 2 ^ 32 := by
      simp only [length_append, hlen] at hsize
      omega
    rw [length_append, hlen] at hentries hsmall
    refine ⟨?_, forall_mem_cons.mpr ⟨hfits, hsmall⟩⟩
    rw [hentries, entriesOf, flatMap_cons, SegmentBuilder.push, hlen, Nat.mod_eq_of_lt hfits.1,
      Nat.mod_eq_of_lt hfits.2, append_assoc]

/-- The flags that a list of deletes leaves. -/
def flagged (flips : List Nat) (rs : List SegmentRecord) : List (SegmentRecord × UInt8) :=
  rs.map fun r => (r, if r.seq.toNat ∈ flips then delSentinel else 0)

section Sealed

variable {startSeq : Nat} {rs : List SegmentRecord}

theorem seq_of_contiguous (hseq : rs.map (·.seq.toNat) = List.range' startSeq rs.length) {i : Nat}
    (hr : rs[i]? = some r) : r.seq.toNat = startSeq + i := by
  have hi := congrArg (·[i]?) hseq
  simp only [getElem?_map, hr, map_some, getElem?_range' (List.getElem?_eq_some_iff.mp hr).1,
    Nat.one_mul] at hi
  exact some.inj hi

theorem locate_flagged (flips : List Nat) {i : Nat} (hr : rs[i]? = some r) :
    ∃ e, (entriesOf 0 rs)[i]? = some e ∧ e.offset + e.len ≤ (framesOf crc (flagged flips rs)).length ∧
      ((framesOf crc (flagged flips rs)).drop e.offset).take e.len =
        dataFrame crc r (if r.seq.toNat ∈ flips then delSentinel else 0) ∧
      ∀ x, (framesOf crc (flagged flips rs)).set (e.offset + (e.len - 1)) x =
        framesOf crc ((flagged flips rs).set i (r, x)) := by
  have hi : i < (entriesOf 0 rs).length := by
    rw [length_entriesOf]
    exact (List.getElem?_eq_some_iff.mp hr).1
  have he := getElem?_eq_getElem hi
  have hfst : (flagged flips rs).map Prod.fst = rs := by simp [flagged, Function.comp_def]
  obtain ⟨f, hf, hlocated⟩ := @entriesOf_locate crc (flagged flips rs) [] i _ (by rwa [hfst])
  rw [flagged, getElem?_map, hr, map_some, some.injEq] at hf
  subst hf
  exact ⟨_, he, hlocated⟩

/-- The index finds the entries of the records, and nothing else. -/
def Indexes (idx : List UInt8) (startSeq : Nat) (rs : List SegmentRecord) : Prop :=
  ∀ seq, lookup idx startSeq seq = if seq < startSeq then none else (entriesOf 0 rs)[seq - startSeq]?

theorem buildSegment_files (hsize : (buildSegment crc startSeq rs).data.length < 2 ^ 32) :
    Indexes (buildSegment crc startSeq rs).idx startSeq rs ∧
      (buildSegment crc startSeq rs).data = framesOf crc (flagged [] rs) ∧
      (buildSegment crc startSeq rs).idx.length / 20 = rs.length := by
  obtain ⟨hdata, hidx⟩ := @foldl_push crc rs ⟨startSeq, startSeq, [], []⟩
  obtain ⟨hidx, hsmall⟩ := hidx (hdata ▸ hsize)
  rw [nil_append] at hidx hdata
  refine ⟨fun seq => ?_, ?_, ?_⟩
  · rw [lookup, buildSegment, hidx, idxEntryAt_flatMap hsmall]
    rfl
  · rw [buildSegment, hdata]
    simp [flagged]
  · rw [buildSegment, hidx, length_flatMap_encodeIdxEntry, length_entriesOf]
    omega

/-- One delete: the entry of a record of the segment leads to its flag, and there is no other entry. -/
theorem flagDeleted_flagged (hseq : rs.map (·.seq.toNat) = List.range' startSeq rs.length)
    {idx : List UInt8} (hlookup : Indexes idx startSeq rs) (flips : List Nat) (seq : Nat) :
    flagDeleted startSeq idx (framesOf crc (flagged flips rs)) seq =
      framesOf crc (flagged (flips ++ [seq]) rs) := by
  by_cases hrange : ∃ i r, seq = startSeq + i ∧ rs[i]? = some r
  · obtain ⟨i, r, rfl, hr⟩ := hrange
    obtain ⟨e, he, -, -, hset⟩ := locate_flagged crc flips hr
    simp only [flagDeleted, hlookup _, Nat.not_lt.mpr (Nat.le_add_right ..), if_false,
      Nat.add_sub_cancel_left, he, hset]
    congr 1
    apply List.ext_getElem?
    intro j
    simp only [flagged, getElem?_set, getElem?_map, length_map]
    by_cases hij : i = j
    · subst hij
      rw [if_pos rfl, if_pos (List.getElem?_eq_some_iff.mp hr).1, hr, map_some,
        if_pos (mem_append_right _ (mem_singleton.mpr (seq_of_contiguous hseq hr)))]
    · rw [if_neg hij]
      cases hj : rs[j]? with
      | none => rfl
      | some r' =>
        have hne : r'.seq.toNat ≠ startSeq + i := by
          rw [seq_of_contiguous hseq hj]
          omega
        simp [hne]
  · have hnone : lookup idx startSeq seq = none := by
      rw [hlookup]
      split
      · rfl
      · apply getElem?_eq_none
        rw [length_entriesOf]
        by_contra hlt
        exact hrange ⟨seq - startSeq, _, by omega, getElem?_eq_getElem (by omega)⟩
    simp only [flagDeleted, hnone]
    congr 1
    apply map_congr_left
    intro r hr
    obtain ⟨i, hi⟩ := mem_iff_getElem?.mp hr
    have hne : r.seq.toNat ≠ seq := fun h => hrange ⟨i, r, h ▸ seq_of_contiguous hseq hi, hi⟩
    simp [hne]

theorem foldl_flagDeleted (hseq : rs.map (·.seq.toNat) = List.range' startSeq rs.length)
    {idx : List UInt8} (hlookup : Indexes idx startSeq rs) (done flips : List Nat) :
    flips.foldl (flagDeleted startSeq idx) (framesOf crc (flagged done rs)) =
      framesOf crc (flagged (done ++ flips) rs) := by
  induction flips generalizing done with
  | nil => simp
  | cons q flips ih =>
    rw [foldl_cons, flagDeleted_flagged crc hseq hlookup, ih, append_assoc, singleton_append]

/-- What a reader finds behind some deletes. -/
theorem readRecord_flagged (hseq : rs.map (·.seq.toNat) = List.range' startSeq rs.length)
    (hfits : ∀ r ∈ rs, r.Fits) {idx : List UInt8} (hlookup : Indexes idx startSeq rs)
    (flips : List Nat) (seq : Nat) :
    readRecord crc startSeq idx (framesOf crc (flagged flips rs)) seq =
      (if seq < startSeq then none else rs[seq - startSeq]?).map fun r => .ok (r, seq ∈ flips) := by
  rw [readRecord, hlookup]
  by_cases hlt : seq < startSeq
  · rw [if_pos hlt, if_pos hlt]
    rfl
  rw [if_neg hlt, if_neg hlt]
  cases hr : rs[seq - startSeq]? with
  | none =>
    rw [List.getElem?_eq_none_iff, ← length_entriesOf 0 rs] at hr
    rw [getElem?_eq_none hr]
    rfl
  | some r =>
    obtain ⟨e, he, hend, hslice, -⟩ := locate_flagged crc flips hr
    rw [he, bind_some, if_neg (by omega), hslice,
      decodeDataFrameFull_dataFrame crc (hfits r (mem_of_getElem? hr)), seq_of_contiguous hseq hr,
      Nat.add_sub_cancel' (by omega)]
    by_cases hflip : seq ∈ flips <;> simp [hflip, delSentinel]

/-- **A segment reads back.**  A segment of consecutive records, whatever was deleted from it since in
whatever order: every seq of it is found with its own record and the delete flag it was given, no other
seq is found, and the scan of a recovery finds exactly the deleted ones. -/
theorem segment_reads_back (hseq : rs.map (·.seq.toNat) = List.range' startSeq rs.length)
    (hfits : ∀ r ∈ rs, r.Fits) (hsize : (buildSegment crc startSeq rs).data.length < 2 ^ 32)
    (flips : List Nat) :
    let seg := buildSegment crc startSeq rs
    let data := flips.foldl (flagDeleted startSeq seg.idx) seg.data
    (∀ seq, readRecord crc startSeq seg.idx data seq =
      (if seq < startSeq then none else rs[seq - startSeq]?).map fun r => .ok (r, seq ∈ flips)) ∧
    scanDeleted crc startSeq seg.idx data = (List.range' startSeq rs.length).filter (· ∈ flips) := by
  intro seg data
  obtain ⟨hlookup, hnew, hcount⟩ := buildSegment_files crc hsize
  have hdata : data = framesOf crc (flagged flips rs) := by
    rw [show data = flips.foldl (flagDeleted startSeq seg.idx) seg.data from rfl, hnew,
      foldl_flagDeleted crc hseq hlookup, nil_append]
  have hread := readRecord_flagged crc hseq hfits hlookup flips
  rw [← hdata] at hread
  refine ⟨hread, ?_⟩
  -- the scan asks the reader about every entry, and the seqs agree
  rw [scanDeleted, hcount]
  refine filter_congr fun seq hmem => ?_
  rw [mem_range'_1] at hmem
  have hget := getElem?_eq_getElem (l := rs) (i := seq - startSeq) (by omega)
  have hr := seq_of_contiguous hseq hget
  rw [hread, if_neg (by omega), hget]
  by_cases hflip : seq ∈ flips
  · simp [hflip, hr]
    omega
  · simp [hflip]

theorem segment_reads_back_deleted :
    let seg := buildSegment (fun _ => 7) 3 [⟨3, 9, none, some "t", [1]⟩, ⟨4, 9, some "n", none, []⟩]
    scanDeleted (fun _ => 7) 3 seg.idx (flagDeleted 3 seg.idx seg.data 4) = [4] := by
  have hfits : ∀ r ∈ [⟨3, 9, none, some "t", [1]⟩, ⟨4, 9, some "n", none, []⟩], SegmentRecord.Fits r := by
    simp only [forall_mem_cons]
    exact ⟨⟨by decide, by decide, by decide⟩, ⟨by decide, by decide, by decide⟩, forall_mem_nil _⟩
  exact (segment_reads_back _ (by decide) hfits (by decide) [4]).2

end Sealed

end Files

end Topics.Wire
