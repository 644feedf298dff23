import Topics.Engine

/-!
# Moving a segment to the cold tier

`confirm_relocated` runs when the COLD copy of a sealed segment exists.  Deletes that came in while
it was being made flipped flags in the HOT copy only, so it copies the flags once more and then
deletes the HOT copy.  Its comment says that the delete is skipped when copying a flag fails; the
code has no such branch, since `propagate_hot_delflags_to_cold` returns nothing.
-/

namespace Topics

/-- `SEG_DEL_SENTINEL`. -/
def segDelSentinel : UInt8 := 0xD5

/-- `IdxEntry`: where the frame of a record lies in `.data`. -/
structure IdxEntry where
  offset : Nat
  len : Nat

/-- The position of the delete flag, the last byte of the frame. -/
def IdxEntry.flagOff (e : IdxEntry) : Nat := e.offset + (e.len - 1)

/-- `frame_is_deleted`: the frame decodes, and its flag is the sentinel.  `decodes` is the check of
the length, the checksum and the sections, none of which covers the flag. -/
def frameIsDeleted (decodes : List UInt8 → Bool) (frame : List UInt8) : Bool :=
  decodes frame.dropLast && frame.getLast? = some segDelSentinel

structure SegmentCopy where
  data : Option (List UInt8)
  idx : Option (List IdxEntry)

inductive Tier where
  | hot
  | cold
  deriving DecidableEq

structure SealedSegment where
  startSeq : Nat
  endSeq : Nat
  tier : Tier

/-- The part of `SegmentWriter` a relocation reads and writes. -/
structure SegmentWriter where
  sealedSegments : List SealedSegment
  /-- The seqs of the recent-seal cache. -/
  cache : List Nat
  hot : Nat → SegmentCopy
  cold : Option (Nat → SegmentCopy)

/-- What the store operations of one call do.  A flip that fails may have written its byte, when
only the sync failed. -/
structure StoreFaults where
  readData : Bool
  readIdx : Bool
  flip : Nat → Bool
  landed : Nat → Bool
  unlinkData : Bool
  unlinkIdx : Bool

namespace SegmentCopy

/-- `mark_record_deleted`, and whether it returned `Ok`. -/
def markRecordDeleted (f : StoreFaults) (seq : Nat) (c : SegmentCopy) (off : Nat) :
    SegmentCopy × Bool :=
  match c.data with
  | none => (c, false)
  | some d =>
    if d.length ≤ off then (c, false)
    else (if f.flip seq || f.landed seq then { c with data := some (d.set off segDelSentinel) } else c,
      f.flip seq)

/-- `delete`: first `.data`, then `.idx`; a missing file is no error. -/
def delete (f : StoreFaults) (c : SegmentCopy) : SegmentCopy :=
  if c.data.isSome && !f.unlinkData then c
  else ⟨none, if f.unlinkIdx then none else c.idx⟩

def FlagSet (c : SegmentCopy) (e : IdxEntry) : Prop :=
  ∃ d, c.data = some d ∧ d[e.flagOff]? = some segDelSentinel

end SegmentCopy

namespace SegmentWriter

section Defs

variable (decodes : List UInt8 → Bool) (f : StoreFaults)

/-- The flag of the frame is set in the HOT bytes. -/
def isFlagged (data : List UInt8) (e : IdxEntry) : Bool :=
  e.offset + e.len ≤ data.length && frameIsDeleted decodes ((data.drop e.offset).take e.len)

/-- The loop over the frames of the HOT copy, and whether every flip returned `Ok`, which the source
only logs. -/
def propagateFlags (data : List UInt8) : Nat → List IdxEntry → SegmentCopy → SegmentCopy × Bool
  | _, [], c => (c, true)
  | seq, e :: es, c =>
    if isFlagged decodes data e then
      let (c, ok) := c.markRecordDeleted f seq e.flagOff
      let (c, rest) := propagateFlags data (seq + 1) es c
      (c, ok && rest)
    else propagateFlags data (seq + 1) es c

/-- `propagate_hot_delflags_to_cold`, and whether it met no error. -/
def propagateHotDelflagsToCold (w : SegmentWriter) (id : Nat) : SegmentWriter × Bool :=
  match w.cold, (w.hot id).data, (w.hot id).idx with
  | none, _, _ => (w, false)
  | some _, none, _ => (w, true)
  | some cold, some data, some idx =>
    if f.readData && f.readIdx then
      let (c, ok) := propagateFlags decodes f data id idx (cold id)
      ({ w with cold := some (Function.update cold id c) }, ok)
    else (w, false)
  | some _, some _, none => (w, false)

def confirmRelocated (w : SegmentWriter) (id : Nat) : SegmentWriter :=
  match w.sealedSegments.find? (·.startSeq == id) with
  | none => w
  | some seg =>
    if seg.tier = .cold then w
    else
      let moved := (propagateHotDelflagsToCold decodes f w id).1
      -- the outcome of the propagation is not looked at
      { moved with
        sealedSegments := modifyFirst (·.startSeq == id) (fun s => { s with tier := .cold })
          w.sealedSegments
        hot := Function.update w.hot id ((w.hot id).delete f)
        cache := w.cache.filter fun q => q < seg.startSeq || seg.endSeq < q }

end Defs

variable {decodes : List UInt8 → Bool} {f : StoreFaults} {w : SegmentWriter} {c : SegmentCopy}
  {e : IdxEntry} {data : List UInt8} {seq id : Nat}

/-! ## The loop -/

theorem flagSet_markRecordDeleted (h : (c.markRecordDeleted f seq e.flagOff).2 = true) :
    (c.markRecordDeleted f seq e.flagOff).1.FlagSet e := by
  unfold SegmentCopy.markRecordDeleted at h ⊢
  split at h
  · cases h
  · rename_i d hd
    split at h
    · cases h
    · rename_i hlt
      simp only at h
      simp only [h, Bool.true_or, if_true, hlt, if_false]
      exact ⟨_, rfl, List.getElem?_set_self (not_le.mp hlt)⟩

theorem FlagSet.markRecordDeleted (h : c.FlagSet e) (off : Nat) :
    (c.markRecordDeleted f seq off).1.FlagSet e := by
  obtain ⟨d, hd, hset⟩ := h
  simp only [SegmentCopy.markRecordDeleted, hd]
  split
  · exact ⟨d, hd, hset⟩
  · split
    · refine ⟨_, rfl, ?_⟩
      by_cases hoff : off = e.flagOff
      · subst hoff
        exact List.getElem?_set_self (List.getElem?_eq_some_iff.mp hset).1
      · rw [List.getElem?_set_ne hoff]
        exact hset
    · exact ⟨d, hd, hset⟩

theorem FlagSet.propagateFlags (h : c.FlagSet e) (es : List IdxEntry) :
    (propagateFlags decodes f data seq es c).1.FlagSet e := by
  induction es generalizing seq c with
  | nil => exact h
  | cons x es ih =>
    unfold SegmentWriter.propagateFlags
    split
    · exact ih (FlagSet.markRecordDeleted h _)
    · exact ih h

/-- **The loop copies every flag**, if every flip returns `Ok`. -/
theorem flagSet_propagateFlags {es : List IdxEntry}
    (h : (propagateFlags decodes f data seq es c).2 = true) (he : e ∈ es)
    (hflag : isFlagged decodes data e = true) :
    (propagateFlags decodes f data seq es c).1.FlagSet e := by
  induction es generalizing seq c with
  | nil => cases he
  | cons x es ih =>
    unfold propagateFlags at h ⊢
    rcases List.mem_cons.mp he with rfl | he
    · simp only [hflag, if_true, Bool.and_eq_true] at h ⊢
      exact FlagSet.propagateFlags (flagSet_markRecordDeleted h.1) es
    · split at h
      · rename_i hx
        simp only [hx, if_true]
        exact ih (Bool.and_eq_true_iff.mp h).2 he
      · rename_i hx
        rw [if_neg hx]
        exact ih h he

/-! ## The relocation -/

/-- One HOT segment with one frame whose flag is set; the COLD copy was made before the delete. -/
def flaggedLate : SegmentWriter where
  sealedSegments := [⟨1, 1, .hot⟩]
  cache := [1]
  hot := fun _ => ⟨some [0, segDelSentinel], some [⟨0, 2⟩]⟩
  cold := some fun _ => ⟨some [0, 0], some [⟨0, 2⟩]⟩

/-- Whether `.data` can be read, and whether the flips succeed. -/
def faulty (read flip : Bool) : StoreFaults := ⟨read, true, fun _ => flip, fun _ => flip, true, true⟩

end SegmentWriter

end Topics
