import Topics.CheckpointPosition
import Topics.SplitTopics

/-!
# Runs with different shard counts over one data directory

`recover_and_open_with` and `drop_absorbed_wal_files` (`engine/recovery.rs`), the part of
`capture` (`engine/snapshot.rs`) that records the checkpoint, and `Checkpoint::position_for_key`
(`storage/snapshot.rs`).

A run with one shard writes to `wal/`, a run with more writes to `wal/shard-NN/`.  Recovery reads
every group on disk from the position the latest snapshot recorded for its directory.  A snapshot
records the groups the running writers do not use as well, and then deletes their files; the
directory may later be used again, with files numbered from 1.
-/

namespace Topics

open Lib List Function

/-- The directory of a WAL group under `wal/`: `""` or `shard-NN`. -/
inductive GroupKey where
  | flat
  | shard (s : Nat)
  deriving DecidableEq, Repr

def GroupKey.shardIdx : GroupKey → Nat
  | .flat => 0
  | .shard s => s

def shardGroupKey (s n : Nat) : GroupKey := if n ≤ 1 then .flat else .shard s

/-- The directories `n` shards write to. -/
def currentDirs (n : Nat) : List GroupKey := (List.range n).map fun s => shardGroupKey s n

/-- The part of a snapshot that recovery positions itself by. -/
structure Checkpoint where
  walIdx : Nat
  walOffset : Nat
  shards : List (Nat × Nat)
  shardKeys : List GroupKey

namespace Checkpoint

def shardPositions (c : Checkpoint) : List (Nat × Nat) :=
  if c.shards = [] then [(c.walIdx, c.walOffset)] else c.shards

def positionForKey (c : Checkpoint) (key : GroupKey) : Option (Nat × Nat) :=
  if c.shardKeys ≠ [] then (c.shardKeys.idxOf? key).bind fun i => c.shards[i]?
  else
    match key with
    | .flat => if c.shards.length ≤ 1 then some (c.walIdx, c.walOffset) else none
    | .shard idx => c.shards[idx]?

/-- The checkpoint `capture` builds from its positions. -/
def ofKeyed (keyed : List (GroupKey × (Nat × Nat))) : Checkpoint where
  walIdx := (keyed.head?.map fun e => e.2.1).getD 0
  walOffset := (keyed.head?.map fun e => e.2.2).getD 0
  shards := keyed.map Prod.snd
  shardKeys := keyed.map Prod.fst

end Checkpoint

/-- `wal-<idx>.log` with the frames a reader finds in it.  The bytes behind the last valid frame
(a torn write, the preallocated rest) are never read as a frame. -/
structure WalFile (Blob : Type) where
  idx : Nat
  frames : List (WalRecord Blob)

variable {Blob : Type} (size : WalRecord Blob → Nat)

def encodedLen (frames : List (WalRecord Blob)) : Nat := (frames.map size).sum

/-- `WalReader::count_valid_len`. -/
def WalFile.validLen (f : WalFile Blob) : Nat := encodedLen size f.frames

/-- The frames that end behind `start`, when the first one begins at `off`. -/
def framesAfter (start : Nat) : Nat → List (WalRecord Blob) → List (WalRecord Blob)
  | _, [] => []
  | off, r :: rs =>
    if off + size r > start then r :: framesAfter start (off + size r) rs
    else framesAfter start (off + size r) rs

/-- The frames of a file that are applied, given the checkpoint position of its group. -/
def replayable (ckpt : Nat × Nat) (f : WalFile Blob) : List (WalRecord Blob) :=
  if f.idx < ckpt.1 then [] else framesAfter size (if f.idx = ckpt.1 then ckpt.2 else 0) 0 f.frames

/-- `active_idx` and `active_valid_len` after the files of a group have been read. -/
def activeTail (ckpt : Nat × Nat) (files : List (WalFile Blob)) : Nat × Nat :=
  match files.getLast? with
  | some f => if f.idx < ckpt.1 then (max ckpt.1 1, ckpt.2) else (f.idx, f.validLen size)
  | none => (max ckpt.1 1, ckpt.2)

/-- Where a writer resumes in a directory: behind its last file's valid tail, or in `wal-1`. -/
def resumeAt (files : List (WalFile Blob)) : Nat × Nat :=
  match files.getLast? with
  | some f => (f.idx, f.validLen size)
  | none => (1, 0)

/-- The frames left when a file is cut to `len` bytes. -/
def setLen : Nat → List (WalRecord Blob) → List (WalRecord Blob)
  | _, [] => []
  | len, r :: rs => if size r ≤ len then r :: setLen (len - size r) rs else []

/-- `truncate_active`; it fails if the file does not exist. -/
def truncateActive (files : List (WalFile Blob)) (tail : Nat × Nat) :
    Option (List (WalFile Blob)) :=
  if files.any fun f => f.idx = tail.1 then
    some (files.map fun f =>
      if f.idx = tail.1 then { f with frames := setLen size tail.2 f.frames } else f)
  else none

/-- The data directory: the files of each group, ascending by index as `list_wal_files` returns
them, the `shard-NN` directories in the order they are listed, and the latest completed snapshot's
checkpoint. -/
structure DataDir (Blob : Type) where
  files : GroupKey → List (WalFile Blob)
  shardDirs : List Nat
  checkpoint : Option Checkpoint

namespace DataDir

def empty : DataDir Blob := ⟨fun _ => [], [], none⟩

def discoverShardGroups (d : DataDir Blob) : List GroupKey :=
  let groups := (if (d.files .flat).isEmpty then [] else [.flat]) ++ d.shardDirs.map .shard
  groups.insertionSort fun a b : GroupKey => a.shardIdx ≤ b.shardIdx

def discoverGroupTails (d : DataDir Blob) : List (GroupKey × (Nat × Nat)) :=
  d.discoverShardGroups.filterMap fun k =>
    if (d.files k).isEmpty then none else some (k, resumeAt size (d.files k))

def ckptFor (d : DataDir Blob) (k : GroupKey) : Nat × Nat :=
  (d.checkpoint.bind fun c => c.positionForKey k).getD (0, 0)

/-- The groups in the order recovery reads them: those of the current layout last. -/
def replayGroups (d : DataDir Blob) (n : Nat) : List GroupKey :=
  d.discoverShardGroups.insertionSort fun a b =>
    toLex (decide (a ∈ currentDirs n), a.shardIdx) ≤ toLex (decide (b ∈ currentDirs n), b.shardIdx)

/-- The frames of a group behind its checkpoint position. -/
def groupFrames (d : DataDir Blob) (k : GroupKey) : List (WalRecord Blob) :=
  (d.files k).flatMap (replayable size (d.ckptFor k))

/-- The truncation of every group's active file. -/
def truncateTails (d : DataDir Blob) (groups : List GroupKey) :
    Option (GroupKey → List (WalFile Blob)) :=
  groups.foldlM (fun files k =>
    if (d.files k).isEmpty then some files
    else
      (truncateActive size (files k) (activeTail size (d.ckptFor k) (d.files k))).map
        (update files k)) d.files

/-- The active files of `n` writers exist once they are open. -/
def openAt (d : DataDir Blob) (n : Nat) : DataDir Blob :=
  { d with
    files := fun k => if k ∈ currentDirs n ∧ (d.files k).isEmpty then [⟨1, []⟩] else d.files k
    shardDirs := d.shardDirs ++
      (List.range n).filter fun s => decide (1 < n) && !d.shardDirs.contains s }

/-- What recovery leaves: the directory, where each writer starts, and the frames it applied in
the order it applied them, each with the group it was read from. -/
structure Recovered (Blob : Type) where
  dir : DataDir Blob
  resume : Nat → Nat × Nat
  applied : List (GroupKey × WalRecord Blob)

/-- `recover_and_open_with` for `n` shards; `order` is the order in which the map of split topics
is iterated. -/
def recover (n : Nat) (order : List Nat) (d : DataDir Blob) : Option (Recovered Blob) :=
  let groups := d.replayGroups n
  let applied := replayOrder (groups.map (d.groupFrames size)) order
  (d.truncateTails size groups).map fun files =>
    { dir := { d with files }.openAt n
      resume := fun s => resumeAt size (files (shardGroupKey s n))
      applied := applied.map fun e => (groups.getD e.go .flat, e.frame) }

/-- The positions `capture` records: those of the `n` writers, and the tails of the other groups
on disk. -/
def capture (d : DataDir Blob) (n : Nat) (position : Nat → Nat × Nat) : Checkpoint :=
  let keyed := (List.range n).map fun s => (shardGroupKey s n, position s)
  .ofKeyed (keyed ++ (d.discoverGroupTails size).filter fun e => !(keyed.map Prod.fst).contains e.1)

/-- Whether `drop_absorbed_wal_files` deletes a file of a group: the ones in front of the active
file of a writer, and everything in a `shard-NN` directory no writer uses. -/
def absorbed (positions : List (Nat × Nat)) (n : Nat) (k : GroupKey) (f : WalFile Blob) : Bool :=
  match k with
  | .flat => n ≤ 1 ∧ f.idx < (positions.getD 0 (0, 0)).1
  | .shard s => if 1 < n ∧ s < n then f.idx < (positions.getD s (0, 0)).1 else true

/-- A listing after the first `m` deletions among the files `p` selects. -/
def removeFirst (p : WalFile Blob → Bool) : Nat → List (WalFile Blob) → List (WalFile Blob)
  | 0, files => files
  | _ + 1, [] => []
  | m + 1, f :: files => if p f then removeFirst p m files else f :: removeFirst p (m + 1) files

/-- `drop_absorbed_wal_files`, with `upto k` deletions made in group `k`: all of them unless the
process dies in between. -/
def dropAbsorbedWalFiles (d : DataDir Blob) (positions : List (Nat × Nat)) (n : Nat)
    (upto : GroupKey → Nat) : DataDir Blob :=
  { d with files := fun k => removeFirst (absorbed positions n k) (upto k) (d.files k) }

end DataDir

/-! ## The machine -/

/-- Where `write_snapshot` is. -/
inductive SnapshotPhase where
  | idle
  /-- The marks are on disk. -/
  | barrier
  /-- The positions have been read. -/
  | captured (c : Checkpoint)
  /-- The snapshot file is durable; its absorbed files are being deleted. -/
  | written (c : Checkpoint)

/-- A data directory and the run over it, if there is one. -/
structure Deployment (Blob : Type) where
  dir : DataDir Blob
  running : Option Nat
  /-- `WalWriter::position` of each shard. -/
  position : Nat → Nat × Nat
  phase : SnapshotPhase
  /-- History: the frames written to each group after the latest completed snapshot read its
  position. -/
  after : GroupKey → List (WalRecord Blob)
  /-- History: the same for the snapshot that is being taken. -/
  since : GroupKey → List (WalRecord Blob)

inductive DeploymentAction (Blob : Type) where
  /-- The process starts with `TOPICS_WAL_SHARDS = walShards`. -/
  | start (walShards : Nat) (order : List Nat)
  | write (s : Nat) (batch : List (WalRecord Blob))
  | barrier (lastCheckpointSeq ts : Nat)
  | readPositions
  | complete
  | dropAbsorbed (upto : GroupKey → Nat)
  | crash

namespace Deployment

variable (capacity : Nat)

def init : Deployment Blob := ⟨.empty, none, fun _ => (1, 0), .idle, fun _ => [], fun _ => []⟩

/-- The files of a group after its writer committed a batch, with a rotation if it does not fit
the active file. -/
def appendFiles (files : List (WalFile Blob)) (pos : Nat × Nat) (batch : List (WalRecord Blob)) :
    List (WalFile Blob) :=
  if pos.2 + encodedLen size batch > capacity then files ++ [⟨pos.1 + 1, batch⟩]
  else files.map fun f => if f.idx = pos.1 then { f with frames := f.frames ++ batch } else f

def appendPosition (pos : Nat × Nat) (batch : List (WalRecord Blob)) : Nat × Nat :=
  if pos.2 + encodedLen size batch > capacity then (pos.1 + 1, encodedLen size batch)
  else (pos.1, pos.2 + encodedLen size batch)

/-- Shard `s` of `n` commits a batch. -/
def commit (d : Deployment Blob) (n s : Nat) (batch : List (WalRecord Blob)) : Deployment Blob :=
  let k := shardGroupKey s n
  { d with
    dir := { d.dir with
      files := update d.dir.files k
        (appendFiles size capacity (d.dir.files k) (d.position s) batch) }
    position := update d.position s (appendPosition size capacity (d.position s) batch)
    after := update d.after k (d.after k ++ batch)
    since := update d.since k (d.since k ++ batch) }

def step (d : Deployment Blob) : DeploymentAction Blob → Option (Deployment Blob)
  | .start walShards order =>
    match d.running with
    | some _ => none
    | none =>
      let n := max walShards 1
      (d.dir.recover size n order).map fun r =>
        { d with dir := r.dir, running := some n, position := r.resume, phase := .idle }
  | .write s batch =>
    d.running.bind fun n => if s < n then some (d.commit size capacity n s batch) else none
  | .barrier lastCheckpointSeq ts =>
    -- one mark per shard; a snapshot that failed before leaves nothing behind
    d.running.map fun n =>
      let mark := WalRecord.checkpointMark lastCheckpointSeq ts
      { (List.range n).foldl (fun d s => d.commit size capacity n s [mark]) d with
        phase := .barrier }
  | .readPositions =>
    match d.running, d.phase with
    | some n, .barrier =>
      some { d with phase := .captured (d.dir.capture size n d.position), since := fun _ => [] }
    | _, _ => none
  | .complete =>
    match d.phase with
    | .captured c =>
      some { d with
        dir := { d.dir with checkpoint := some c }
        phase := .written c
        after := d.since }
    | _ => none
  | .dropAbsorbed upto =>
    match d.running, d.phase with
    | some n, .written c =>
      some { d with dir := d.dir.dropAbsorbedWalFiles c.shardPositions n upto }
    | _, _ => none
  | .crash => d.running.map fun _ => { d with running := none, phase := .idle }

/-- The condition on a run: no writer starts in a directory without files for which the latest
snapshot has a position behind the start of `wal-1`. -/
def Unrecorded (d : Deployment Blob) : DeploymentAction Blob → Prop
  | .start walShards _ =>
    ∀ k ∈ currentDirs (max walShards 1), d.dir.files k = [] →
      WalGroup.Before (d.dir.ckptFor k) (1, 0)
  | _ => True

end Deployment

/-! ## What a position leaves to apply -/

section Frames

variable {size}

def Sized (size : WalRecord Blob → Nat) : Prop := ∀ r, 0 < size r

theorem encodedLen_append (xs ys : List (WalRecord Blob)) :
    encodedLen size (xs ++ ys) = encodedLen size xs + encodedLen size ys := by
  simp [encodedLen]

theorem encodedLen_cons (r : WalRecord Blob) (rs : List (WalRecord Blob)) :
    encodedLen size (r :: rs) = size r + encodedLen size rs := rfl

theorem framesAfter_append (start off : Nat) (xs ys : List (WalRecord Blob)) :
    framesAfter size start off (xs ++ ys) =
      framesAfter size start off xs ++ framesAfter size start (off + encodedLen size xs) ys := by
  induction xs generalizing off with
  | nil => rfl
  | cons r xs ih =>
    rw [cons_append, framesAfter, framesAfter, ih, encodedLen_cons, Nat.add_assoc]
    split <;> rfl

variable {start off : Nat} {pos : Nat × Nat} {files : List (WalFile Blob)} {f : WalFile Blob}
  {p : WalFile Blob → Bool}

theorem framesAfter_eq_self (hsize : Sized size) (h : start ≤ off) (xs : List (WalRecord Blob)) :
    framesAfter size start off xs = xs := by
  induction xs generalizing off with
  | nil => rfl
  | cons r xs ih =>
    have hr := hsize r
    rw [framesAfter, if_pos (by omega), ih (by omega)]

theorem framesAfter_eq_nil {xs : List (WalRecord Blob)} (h : off + encodedLen size xs ≤ start) :
    framesAfter size start off xs = [] := by
  induction xs generalizing off with
  | nil => rfl
  | cons r xs ih =>
    rw [encodedLen_cons] at h
    rw [framesAfter, if_neg (by omega), ih (by omega)]

theorem setLen_encodedLen (xs : List (WalRecord Blob)) :
    setLen size (encodedLen size xs) xs = xs := by
  induction xs with
  | nil => rfl
  | cons r xs ih =>
    rw [encodedLen_cons, setLen, if_pos (Nat.le_add_right _ _), Nat.add_sub_cancel_left, ih]

/-- The listing of a directory: no two files of one index, the last one highest. -/
def Ordered (files : List (WalFile Blob)) : Prop := files.Pairwise fun f g => f.idx < g.idx

/-- Recovery from `pos` applies `fresh`, and the position is not behind the end of the group. -/
structure Resumes (size : WalRecord Blob → Nat) (pos : Nat × Nat) (files : List (WalFile Blob))
    (fresh : List (WalRecord Blob)) : Prop where
  frames : files.flatMap (replayable size pos) = fresh
  before : files ≠ [] → WalGroup.Before pos (resumeAt size files)

@[simp] theorem resumeAt_concat (files : List (WalFile Blob)) (f : WalFile Blob) :
    resumeAt size (files ++ [f]) = (f.idx, f.validLen size) := by
  simp [resumeAt]

theorem Resumes.nil (pos : Nat × Nat) : Resumes size pos [] [] :=
  ⟨rfl, fun h => absurd rfl h⟩

theorem Resumes.eq_nil {fresh : List (WalRecord Blob)} (h : Resumes size pos [] fresh) :
    fresh = [] := h.frames.symm

theorem Resumes.fresh (h : WalGroup.Before pos (1, 0)) :
    Resumes size pos [⟨1, []⟩] [] := by
  refine ⟨?_, fun _ => h⟩
  simp [replayable, framesAfter]

theorem Resumes.atEnd (hord : Ordered files) :
    Resumes size (resumeAt size files) files [] := by
  rcases eq_nil_or_concat' files with rfl | ⟨init, f, rfl⟩
  · exact .nil _
  refine ⟨?_, fun _ => Or.inr ⟨rfl, le_rfl⟩⟩
  refine flatMap_eq_nil_iff.mpr fun g hg => ?_
  rw [resumeAt_concat]
  rcases mem_append.mp hg with hg | hg
  · exact if_pos ((pairwise_append.mp hord).2.2 g hg f mem_cons_self)
  · cases mem_singleton.mp hg
    rw [replayable, if_neg (lt_irrefl _), if_pos rfl]
    refine framesAfter_eq_nil ?_
    rw [Nat.zero_add]
    exact le_rfl

/-! ### A batch -/

variable {capacity : Nat}

open Deployment

theorem replayable_append (hsize : Sized size) (h : WalGroup.Before pos (f.idx, f.validLen size))
    (batch : List (WalRecord Blob)) :
    replayable size pos { f with frames := f.frames ++ batch } =
      replayable size pos f ++ batch := by
  have hidx : ¬ f.idx < pos.1 := by
    rcases h with h | h <;> omega
  have hstart : (if f.idx = pos.1 then pos.2 else 0) ≤ 0 + encodedLen size f.frames := by
    rw [Nat.zero_add]
    split
    · rcases h with h | h
      · omega
      · exact h.2
    · exact Nat.zero_le _
  simp only [replayable, if_neg hidx]
  rw [framesAfter_append, framesAfter_eq_self hsize hstart]

theorem replayable_next (hsize : Sized size) (h : WalGroup.Before pos (f.idx, f.validLen size))
    (batch : List (WalRecord Blob)) :
    replayable size pos ⟨f.idx + 1, batch⟩ = batch := by
  have hidx : pos.1 < f.idx + 1 := by
    rcases h with h | h <;> omega
  rw [replayable, if_neg (by simp only; omega), if_neg (by simp only; omega)]
  exact framesAfter_eq_self hsize le_rfl batch

theorem appendFiles_concat {init : List (WalFile Blob)} (hord : Ordered (init ++ [f]))
    (batch : List (WalRecord Blob)) :
    appendFiles size capacity (init ++ [f]) (f.idx, f.validLen size) batch =
      if f.validLen size + encodedLen size batch > capacity then
        init ++ [f] ++ [⟨f.idx + 1, batch⟩]
      else init ++ [{ f with frames := f.frames ++ batch }] := by
  unfold appendFiles
  split
  · rfl
  · -- the writer's file is the last one
    have hinit : (init.map fun g =>
        if g.idx = f.idx then { g with frames := g.frames ++ batch } else g) = init := by
      refine (map_congr_left fun g hg => if_neg ?_).trans (map_id _)
      exact Nat.ne_of_lt ((pairwise_append.mp hord).2.2 g hg f mem_cons_self)
    rw [map_append, hinit]
    simp

theorem Ordered.append (hord : Ordered files) (hne : files ≠ []) (batch : List (WalRecord Blob)) :
    Ordered (appendFiles size capacity files (resumeAt size files) batch) := by
  rcases eq_nil_or_concat' files with rfl | ⟨init, f, rfl⟩
  · exact absurd rfl hne
  rw [resumeAt_concat, appendFiles_concat hord]
  obtain ⟨hinit, -, hlast⟩ := pairwise_append.mp hord
  split
  · refine pairwise_append.mpr ⟨hord, pairwise_singleton _ _, fun g hg y hy => ?_⟩
    cases mem_singleton.mp hy
    rcases mem_append.mp hg with hg | hg
    · exact Nat.lt_succ_of_lt (hlast g hg f mem_cons_self)
    · cases mem_singleton.mp hg
      exact Nat.lt_succ_self _
  · refine pairwise_append.mpr ⟨hinit, pairwise_singleton _ _, fun g hg y hy => ?_⟩
    cases mem_singleton.mp hy
    exact hlast g hg f mem_cons_self

theorem resumeAt_append (hord : Ordered files) (hne : files ≠ []) (batch : List (WalRecord Blob)) :
    resumeAt size (appendFiles size capacity files (resumeAt size files) batch) =
      appendPosition size capacity (resumeAt size files) batch := by
  rcases eq_nil_or_concat' files with rfl | ⟨init, f, rfl⟩
  · exact absurd rfl hne
  rw [resumeAt_concat, appendFiles_concat hord, appendPosition]
  split
  · exact resumeAt_concat _ _
  · rw [resumeAt_concat]
    exact Prod.ext rfl (encodedLen_append _ _)

theorem appendFiles_ne_nil (hne : files ≠ []) (pos : Nat × Nat) (batch : List (WalRecord Blob)) :
    appendFiles size capacity files pos batch ≠ [] := by
  unfold appendFiles
  split <;> simp [hne]

theorem Resumes.append (hsize : Sized size) {fresh : List (WalRecord Blob)} (hord : Ordered files)
    (hne : files ≠ []) (h : Resumes size pos files fresh) (batch : List (WalRecord Blob)) :
    Resumes size pos (appendFiles size capacity files (resumeAt size files) batch)
      (fresh ++ batch) := by
  obtain ⟨hframes, hbefore⟩ := h
  specialize hbefore hne
  refine ⟨?_, fun _ => ?_⟩
  · rcases eq_nil_or_concat' files with rfl | ⟨init, f, rfl⟩
    · exact absurd rfl hne
    rw [resumeAt_concat] at hbefore ⊢
    rw [appendFiles_concat hord, ← hframes]
    split
    · simp [replayable_next hsize hbefore]
    · simp [replayable_append hsize hbefore]
  · rw [resumeAt_append hord hne, appendPosition]
    refine hbefore.trans ?_
    split
    · exact Or.inl (Nat.lt_succ_self _)
    · exact Or.inr ⟨rfl, Nat.le_add_right _ _⟩

/-! ### Deletions -/

open DataDir

theorem flatMap_removeFirst {g : WalFile Blob → List (WalRecord Blob)}
    (h : ∀ f ∈ files, p f = true → g f = []) (m : Nat) :
    (removeFirst p m files).flatMap g = files.flatMap g := by
  induction files generalizing m with
  | nil => cases m <;> rfl
  | cons f files ih =>
    have ih := ih fun f' hf' => h f' (mem_cons_of_mem f hf')
    cases m with
    | zero => rfl
    | succ m =>
      rw [removeFirst, flatMap_cons]
      by_cases hp : p f = true
      · rw [if_pos hp, ih, h f mem_cons_self hp, nil_append]
      · rw [if_neg hp, flatMap_cons, ih]

theorem sublist_removeFirst (p : WalFile Blob → Bool) (m : Nat) (files : List (WalFile Blob)) :
    (removeFirst p m files).Sublist files := by
  induction files generalizing m with
  | nil => cases m <;> exact List.Sublist.refl _
  | cons f files ih =>
    cases m with
    | zero => exact List.Sublist.refl _
    | succ m =>
      rw [removeFirst]
      split
      · exact (ih m).cons f
      · exact (ih (m + 1)).cons_cons f

theorem removeFirst_all (h : ∀ f ∈ files, p f = true) (m : Nat) :
    removeFirst p m files = files.drop m := by
  induction files generalizing m with
  | nil => cases m <;> rfl
  | cons f files ih =>
    cases m with
    | zero => rfl
    | succ m =>
      rw [removeFirst, if_pos (h f mem_cons_self), drop_succ_cons,
        ih fun f' hf' => h f' (mem_cons_of_mem f hf')]

theorem removeFirst_concat (init : List (WalFile Blob)) (h : p f = false) (m : Nat) :
    removeFirst p m (init ++ [f]) = removeFirst p m init ++ [f] := by
  induction init generalizing m with
  | nil => cases m <;> simp [removeFirst, h]
  | cons g init ih =>
    cases m with
    | zero => rfl
    | succ m =>
      rw [cons_append, removeFirst, removeFirst, ih, ih]
      split <;> rfl

theorem Ordered.removeFirst (hord : Ordered files) (p : WalFile Blob → Bool) (m : Nat) :
    Ordered (removeFirst p m files) :=
  List.Pairwise.sublist (sublist_removeFirst p m files) hord

theorem Resumes.removeFront {fresh : List (WalRecord Blob)} (h : Resumes size pos files fresh)
    (hp : ∀ f, p f = true → f.idx < pos.1) (m : Nat) :
    Resumes size pos (removeFirst p m files) fresh ∧
      resumeAt size (removeFirst p m files) = resumeAt size files ∧
      (files ≠ [] → removeFirst p m files ≠ []) := by
  have hframes : (removeFirst p m files).flatMap (replayable size pos) = fresh :=
    (flatMap_removeFirst (fun f _ hf => if_pos (hp f hf)) m).trans h.frames
  rcases eq_nil_or_concat' files with rfl | ⟨init, f, rfl⟩
  · rw [sublist_nil.mp (sublist_removeFirst p m [])] at hframes ⊢
    exact ⟨⟨hframes, fun hne => absurd rfl hne⟩, rfl, id⟩
  · have hbefore := h.before (by simp)
    rw [resumeAt_concat] at hbefore
    have hlast : p f = false := by
      refine Bool.eq_false_iff.mpr fun hf => ?_
      have := hp f hf
      rcases hbefore with h | h <;> omega
    rw [removeFirst_concat init hlast] at hframes ⊢
    rw [resumeAt_concat, resumeAt_concat]
    refine ⟨⟨hframes, fun _ => ?_⟩, rfl, fun _ => by simp⟩
    rw [resumeAt_concat]
    exact hbefore

theorem Resumes.removeAll (h : Resumes size pos files []) (hp : ∀ f ∈ files, p f = true) (m : Nat) :
    Resumes size pos (removeFirst p m files) [] := by
  rw [removeFirst_all hp]
  refine ⟨?_, fun hne => ?_⟩
  · refine flatMap_eq_nil_iff.mpr fun f hf => ?_
    exact flatMap_eq_nil_iff.mp h.frames f (mem_of_mem_drop hf)
  · have hm : ¬ files.length ≤ m := fun hm => hne (drop_eq_nil_of_le hm)
    have hbefore := h.before fun hnil => hm (by simp [hnil])
    rw [resumeAt] at hbefore ⊢
    rwa [getLast?_drop, if_neg hm]

end Frames

end Topics
