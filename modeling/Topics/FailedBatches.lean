import Topics.Lib.Exec
import Topics.WalCodec

/-!
# What a failed WAL batch leaves in the file

`WriterTask::commit_batch` (`storage/wal.rs`) on the bytes of its files.  A batch that fails, in
the middle of its write or at the fsync, is undone by moving the append position back; its bytes
stay in the file until later batches are written over them.
-/

namespace Topics.Wire

open Lib List WalRecord

structure Submission where
  records : List WalRecord
  durable : Bool

def batchFrames (pending : List Submission) : List WalFrame :=
  pending.flatMap fun sub => sub.records.map fun r => ⟨r, sub.durable⟩

inductive Outcome where
  | committed
  /-- The next file cannot be created. -/
  | createFailed
  /-- The write stops after some bytes. -/
  | writeFailed (written : Nat)
  | syncFailed
  deriving DecidableEq, Repr

/-- A call of `commit_batch`. -/
structure Batch where
  pending : List Submission
  anyDurable : Bool
  outcome : Outcome

/-- `ActiveFile`: everything in the file, and the append position. -/
structure ActiveFile where
  bytes : List UInt8
  len : Nat
  capacity : Nat

structure WriterTask where
  fileSize : Nat
  /-- The files rotated away. -/
  older : List (List UInt8)
  file : ActiveFile
  readOnly : Bool
  /-- History: the committed frames of the files rotated away. -/
  olderCommitted : List (List WalFrame)
  /-- History: the committed frames of the active file. -/
  committed : List WalFrame
  /-- History: the frames of the last batch, if it failed. -/
  failed : List WalFrame

def overwrite (bytes : List UInt8) (off : Nat) (w : List UInt8) : List UInt8 :=
  bytes.take off ++ (w ++ bytes.drop (off + w.length))

namespace WriterTask

variable (crc : List UInt8 → UInt64)

/-- A writer over a file that holds some frames and is zero behind them. -/
def init (fileSize : Nat) (frames : List WalFrame) (room : Nat) : WriterTask where
  fileSize := fileSize
  older := []
  file :=
    { bytes := encodeAll crc frames ++ List.replicate room 0
      len := (encodeAll crc frames).length
      capacity := (encodeAll crc frames).length + room }
  readOnly := false
  olderCommitted := []
  committed := frames
  failed := []

/-- `ActiveFile::create` of the next file. -/
def rotate (s : WriterTask) : WriterTask :=
  { s with
    older := s.older ++ [s.file.bytes]
    file := ⟨List.replicate s.fileSize 0, 0, s.fileSize⟩
    olderCommitted := s.olderCommitted ++ [s.committed]
    committed := [] }

def wrote (b : Batch) : List UInt8 :=
  let bytes := encodeAll crc (batchFrames b.pending)
  match b.outcome with
  | .committed | .syncFailed => bytes
  | .writeFailed written => bytes.take written
  | .createFailed => []

/-- The write and the fsync; a failure moves the append position back. -/
def write (s : WriterTask) (b : Batch) : Option WriterTask :=
  let frames := batchFrames b.pending
  let bytes := encodeAll crc frames
  let file := { s.file with bytes := overwrite s.file.bytes s.file.len (wrote crc b) }
  match b.outcome with
  | .committed =>
    some { s with
      file := { file with len := s.file.len + bytes.length }
      committed := s.committed ++ frames
      failed := [] }
  | .writeFailed written =>
    if written < bytes.length then some { s with file, failed := frames } else none
  | .syncFailed => if b.anyDurable then some { s with file, failed := frames } else none
  | .createFailed => none

/-- Whether the batch does not fit the active file. -/
def rotates (s : WriterTask) (b : Batch) : Bool :=
  s.file.len + (encodeAll crc (batchFrames b.pending)).length > s.file.capacity

/-- `commit_batch`. -/
def step (s : WriterTask) (b : Batch) : Option WriterTask :=
  if b.pending.isEmpty then some s
  else if s.readOnly then some { s with failed := batchFrames b.pending }
  else if s.rotates crc b then
    if b.outcome = .createFailed then
      some { s with readOnly := true, failed := batchFrames b.pending }
    else s.rotate.write crc b
  else s.write crc b

/-! ## The condition -/

/-- The frames that lie wholly in the first `k` of their bytes. -/
def wholeFrames : Nat → List WalFrame → List WalFrame
  | _, [] => []
  | k, f :: frames =>
    let size := (encodeFrame crc f.record f.durable).length
    if size ≤ k then f :: wholeFrames (k - size) frames else []

/-- Behind the last whole frame a batch leaves in the file, no valid frame begins. -/
def TornBehind (s : WriterTask) (b : Batch) : Prop :=
  let w := wrote crc b
  let whole := wholeFrames crc w.length (batchFrames b.pending)
  decodeOne crc ((overwrite s.file.bytes s.file.len w).drop
    (s.file.len + (encodeAll crc whole).length)) = none

/-- The condition on a step: no valid frame begins behind what it leaves, in the file it writes
and in the file it leaves behind. -/
def Clean (s : WriterTask) (b : Batch) : Prop :=
  if b.pending.isEmpty then True
  else if s.readOnly then decodeOne crc (s.file.bytes.drop s.file.len) = none
  else if s.rotates crc b then
    decodeOne crc (s.file.bytes.drop s.file.len) = none ∧ s.rotate.TornBehind crc b
  else s.TornBehind crc b

/-! ## Overwriting -/

variable {bytes : List UInt8} {off : Nat} {frames : List WalFrame} {s : WriterTask} {b : Batch}

theorem take_overwrite (h : off ≤ bytes.length) (w : List UInt8) :
    (overwrite bytes off w).take off = bytes.take off := by
  have hlen : (bytes.take off).length = off := by
    rw [length_take]
    omega
  rw [overwrite, take_append_of_le_length (by omega), take_of_length_le (by omega)]

theorem drop_overwrite (h : off ≤ bytes.length) (w : List UInt8) :
    (overwrite bytes off w).drop off = w ++ bytes.drop (off + w.length) := by
  have hlen : (bytes.take off).length = off := by
    rw [length_take]
    omega
  rw [overwrite, drop_append_of_le_length (by omega), drop_of_length_le (by omega),
    nil_append]

theorem wholeFrames_isPrefix (k : Nat) (frames : List WalFrame) :
    wholeFrames crc k frames <+: frames := by
  induction frames generalizing k with
  | nil => exact nil_prefix
  | cons f frames ih =>
    rw [wholeFrames]
    split
    · exact cons_prefix_cons.mpr ⟨rfl, ih _⟩
    · exact nil_prefix

theorem encodeAll_wholeFrames_isPrefix (k : Nat) (frames : List WalFrame) :
    encodeAll crc (wholeFrames crc k frames) <+: (encodeAll crc frames).take k := by
  induction frames generalizing k with
  | nil => exact nil_prefix
  | cons f frames ih =>
    rw [wholeFrames, encodeAll_cons]
    split
    · rename_i hk
      rw [encodeAll_cons, take_append, take_of_length_le hk]
      exact (prefix_append_right_inj _).mpr (ih _)
    · exact nil_prefix

theorem wholeFrames_eq_self {k : Nat} (h : (encodeAll crc frames).length ≤ k) :
    wholeFrames crc k frames = frames := by
  induction frames generalizing k with
  | nil => rfl
  | cons f frames ih =>
    rw [encodeAll_cons, length_append] at h
    rw [wholeFrames, if_pos (by omega), ih (by omega)]

theorem wrote_eq_take (b : Batch) :
    wrote crc b = (encodeAll crc (batchFrames b.pending)).take (wrote crc b).length := by
  unfold wrote
  cases b.outcome with
  | committed | syncFailed => exact take_length.symm
  | createFailed => rfl
  | writeFailed written =>
    simp only [length_take]
    by_cases h : written ≤ (encodeAll crc (batchFrames b.pending)).length
    · rw [min_eq_left h]
    · rw [min_eq_right (by omega), take_length, take_of_length_le (by omega)]

/-! ## The invariant -/

/-- The records of a batch have the sizes a frame can hold. -/
def BatchFits (b : Batch) : Prop := ∀ f ∈ batchFrames b.pending, f.record.Fits

/-- In front of the append position lie the committed frames; behind it the reader finds at most
frames of a failed last batch. -/
structure Inv (s : WriterTask) : Prop where
  fits : ∀ f ∈ s.committed, f.record.Fits
  front : s.file.bytes.take s.file.len = encodeAll crc s.committed
  len : s.file.len ≤ s.file.bytes.length
  older : s.older.map (readFrames crc) = s.olderCommitted
  behind : readFrames crc (s.file.bytes.drop s.file.len) <+: s.failed

variable {crc}

theorem Inv.readFrames_file (h : s.Inv crc) :
    readFrames crc s.file.bytes =
      s.committed ++ readFrames crc (s.file.bytes.drop s.file.len) := by
  rw [← readFrames_append crc h.fits, ← h.front, take_append_drop]

theorem inv_init {fileSize room : Nat} (h : ∀ f ∈ frames, f.record.Fits) :
    Inv crc (init crc fileSize frames room) where
  fits := h
  front := take_left
  len := by simp [init]
  older := rfl
  behind := by
    simp only [init, drop_left, readFrames_of_torn crc (decodeOne_replicate_zero crc room)]
    exact nil_prefix

theorem Inv.unwritten (h : s.Inv crc)
    (hclean : decodeOne crc (s.file.bytes.drop s.file.len) = none) (readOnly : Bool)
    (failed : List WalFrame) : Inv crc { s with readOnly, failed } := by
  refine { h with behind := ?_ }
  rw [readFrames_of_torn crc hclean]
  exact nil_prefix

theorem Inv.rotate (h : s.Inv crc) (hclean : decodeOne crc (s.file.bytes.drop s.file.len) = none) :
    s.rotate.Inv crc where
  fits := fun _ hf => nomatch hf
  front := rfl
  len := Nat.zero_le _
  older := by
    have hfile := h.readFrames_file
    rw [readFrames_of_torn crc hclean, append_nil] at hfile
    simp only [WriterTask.rotate, map_append, h.older, map_cons, map_nil, hfile]
  behind := by
    simp only [WriterTask.rotate, drop_zero]
    rw [readFrames_of_torn crc (decodeOne_replicate_zero crc s.fileSize)]
    exact nil_prefix

theorem Inv.readFrames_written (h : s.Inv crc) (hfits : BatchFits b) (hclean : s.TornBehind crc b) :
    readFrames crc ((overwrite s.file.bytes s.file.len (wrote crc b)).drop s.file.len) =
      wholeFrames crc (wrote crc b).length (batchFrames b.pending) := by
  have hwhole := encodeAll_wholeFrames_isPrefix crc (wrote crc b).length (batchFrames b.pending)
  have hsub := wholeFrames_isPrefix crc (wrote crc b).length (batchFrames b.pending)
  unfold TornBehind at hclean
  simp only at hclean
  rw [← wrote_eq_take crc b] at hwhole
  generalize wholeFrames crc (wrote crc b).length (batchFrames b.pending) = whole at *
  obtain ⟨cut, hcut⟩ := hwhole
  rw [← drop_drop, drop_overwrite h.len, ← hcut, append_assoc, drop_left] at hclean
  rw [drop_overwrite h.len, ← hcut, append_assoc,
    readFrames_append crc fun f hf => hfits f (hsub.subset hf), readFrames_of_torn crc hclean,
    append_nil]

theorem Inv.write {s s' : WriterTask} (h : s.Inv crc) (hfits : BatchFits b)
    (hclean : s.TornBehind crc b) (hstep : s.write crc b = some s') : s'.Inv crc := by
  have hread := h.readFrames_written hfits hclean
  have hfront : (overwrite s.file.bytes s.file.len (wrote crc b)).take s.file.len =
      encodeAll crc s.committed := (take_overwrite h.len _).trans h.front
  have hlen : s.file.len ≤ (overwrite s.file.bytes s.file.len (wrote crc b)).length := by
    rw [overwrite, length_append, length_take]
    have := h.len
    omega
  -- a failed batch: the append position is where it was
  have hfail : Inv crc { s with
      file := { s.file with bytes := overwrite s.file.bytes s.file.len (wrote crc b) }
      failed := batchFrames b.pending } := by
    refine ⟨h.fits, hfront, hlen, h.older, ?_⟩
    simp only [hread]
    exact wholeFrames_isPrefix crc _ _
  unfold WriterTask.write at hstep
  simp only at hstep
  cases hout : b.outcome with
  | createFailed => rw [hout] at hstep; cases hstep
  | writeFailed | syncFailed =>
    rw [hout] at hstep
    simp only at hstep
    split at hstep
    · cases hstep
      exact hfail
    · cases hstep
  | committed =>
    rw [hout] at hstep
    cases hstep
    have hwrote : wrote crc b = encodeAll crc (batchFrames b.pending) := by
      unfold wrote
      rw [hout]
    have hdrop := drop_overwrite h.len (wrote crc b)
    have hclean := hclean
    unfold TornBehind at hclean
    simp only at hclean
    rw [hwrote] at hfront hlen hdrop hclean
    rw [wholeFrames_eq_self crc le_rfl] at hclean
    refine ⟨?_, ?_, ?_, h.older, ?_⟩
    · intro f hf
      rcases mem_append.mp hf with hf | hf
      · exact h.fits f hf
      · exact hfits f hf
    · simp only [hwrote]
      rw [take_add, hfront, hdrop, take_left, encodeAll_append]
    · simp only [hwrote]
      have hsplit := congrArg length hdrop
      rw [length_drop, length_append] at hsplit
      omega
    · simp only [hwrote, readFrames_of_torn crc hclean]
      exact nil_prefix

/-- **Step lemma.** -/
theorem inv_step (s : WriterTask) (b : Batch) (s' : WriterTask) (h : s.Inv crc)
    (hC : BatchFits b ∧ s.Clean crc b) (hstep : s.step crc b = some s') : s'.Inv crc := by
  obtain ⟨hfits, hclean⟩ := hC
  unfold step at hstep
  unfold Clean at hclean
  split at hstep
  · cases hstep
    exact h
  · rename_i hpending
    rw [if_neg hpending] at hclean
    split at hstep
    · rename_i hread
      rw [if_pos hread] at hclean
      cases hstep
      exact h.unwritten hclean s.readOnly _
    · rename_i hread
      rw [if_neg hread] at hclean
      split at hstep
      · rename_i hrot
        rw [if_pos hrot] at hclean
        split at hstep
        · cases hstep
          exact h.unwritten hclean.1 true _
        · exact (h.rotate hclean.1).write hfits hclean.2 hstep
      · rename_i hrot
        rw [if_neg hrot] at hclean
        exact h.write hfits hclean hstep

def sum31 (bs : List UInt8) : UInt64 := bs.foldl (fun h b => h * 31 + b.toUInt64) 7

/-- An `Append` with a payload of one byte; its frame has 47 bytes. -/
def event (seq : UInt64) (payload : UInt8) : WalRecord := .append 1 seq 0 none none [payload]

def batch (events : List (UInt64 × UInt8)) (outcome : Outcome) : Batch :=
  ⟨[⟨events.map fun e => event e.1 e.2, true⟩], true, outcome⟩

instance (s : WriterTask) (b : Batch) : Decidable (s.TornBehind crc b) :=
  inferInstanceAs (Decidable (_ = none))

instance (s : WriterTask) (b : Batch) : Decidable (s.Clean crc b) :=
  inferInstanceAs (Decidable (if b.pending.isEmpty then True
    else if s.readOnly then decodeOne crc (s.file.bytes.drop s.file.len) = none
    else if s.rotates crc b then
      decodeOne crc (s.file.bytes.drop s.file.len) = none ∧ s.rotate.TornBehind crc b
    else s.TornBehind crc b))

/-- A batch fails at its fsync, another in the middle of its write; a longer one is written over
both. -/
def coveredRun : List Batch :=
  [batch [(1, 10)] .committed, batch [(2, 20)] .syncFailed,
    batch [(2, 30), (3, 30)] (.writeFailed 60), batch [(2, 40), (3, 40)] .committed]

theorem event_fits (seq : UInt64) (payload : UInt8) : (event seq payload).Fits := by
  refine ⟨by simp [event, node, inlineBytes], by simp [event, tag, inlineBytes],
    ?_⟩
  rw [length_frameBody]
  simp [event, node, tag, data, inlineBytes]

theorem batch_fits (events : List (UInt64 × UInt8)) (outcome : Outcome) :
    BatchFits (batch events outcome) := by
  intro f hf
  simp only [batch, batchFrames, flatMap_cons, flatMap_nil, append_nil,
    map_map] at hf
  obtain ⟨e, -, rfl⟩ := mem_map.mp hf
  exact event_fits e.1 e.2

/-- A failed batch of two frames, then a committed one of one frame. -/
def shorterRun : List Batch :=
  [batch [(1, 10), (2, 20)] .syncFailed, batch [(1, 30)] .committed]

/-- A failed batch, then a committed one that does not fit the file. -/
def rotatedRun : List Batch :=
  [batch [(1, 10)] .syncFailed, batch [(1, 30), (2, 40)] .committed]

end WriterTask

end Topics.Wire
