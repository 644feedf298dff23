import Topics.ShardLayouts
import Topics.Lib.Bytes
import Topics.Lib.Disk
import Mathlib.Data.Nat.Pairing

/-!
# Snapshot files

`storage/snapshot.rs`: the frame around a snapshot's body, the files of `meta/`, and
`Engine::write_snapshot`, which writes a new file and then removes what it replaces.  The body is
postcard's, its checksum XXH3; both are parameters here.
-/

namespace Topics

open Lib List Option

/-- What the files depend on: two fields of `Snapshot`, postcard, and XXH3-64. -/
structure SnapshotFormat (Snap : Type) where
  id : Snap → Nat
  checkpoint : Snap → Checkpoint
  encodeBody : Snap → Option (List UInt8)
  decodeBody : List UInt8 → Option Snap
  xxh3 : List UInt8 → Nat
  xxh3_lt : ∀ bytes, xxh3 bytes < 2 ^ 64

/-- `SnapshotError`, without the errors of the file system. -/
inductive SnapshotError where
  | encode
  | decode
  | shorterThanHeader
  | badMagic
  | unsupportedVersion (version : Nat)
  | bodyOverrunsFile
  | crcMismatch
  deriving DecidableEq, Repr

/-- `SNAPSHOT_MAGIC`, the bytes of `SNP1`. -/
def snapshotMagic : List UInt8 := [0x53, 0x4e, 0x50, 0x31]

def snapshotVersion : Nat := 3

def snapshotHeaderLen : Nat := 20

namespace SnapshotFormat

variable {Snap : Type} (F : SnapshotFormat Snap)

def RoundTrips : Prop := ∀ snap body, F.encodeBody snap = some body → F.decodeBody body = some snap

/-- The bytes `write_snapshot_with` writes.  `leBytes 4` keeps the lowest 32 bits, as `as u32`
does. -/
def frame (body : List UInt8) : List UInt8 :=
  snapshotMagic ++ leBytes 4 snapshotVersion ++ leBytes 4 body.length ++ leBytes 8 (F.xxh3 body) ++
    body

/-- `read_snapshot_file` on the contents of the file.  The sum of a `u32` and the header length does
not overflow a `usize`. -/
def readSnapshotFile (buf : List UInt8) : Except SnapshotError Snap :=
  if buf.length < snapshotHeaderLen then .error .shorterThanHeader
  else if buf.take 4 ≠ snapshotMagic then .error .badMagic
  else if leNat ((buf.drop 4).take 4) ≠ snapshotVersion then
    .error (.unsupportedVersion (leNat ((buf.drop 4).take 4)))
  else
    let bodyLen := leNat ((buf.drop 8).take 4)
    let body := (buf.drop snapshotHeaderLen).take bodyLen
    if buf.length < snapshotHeaderLen + bodyLen then .error .bodyOverrunsFile
    else if F.xxh3 body ≠ leNat ((buf.drop 12).take 8) then .error .crcMismatch
    else
      match F.decodeBody body with
      | some snap => .ok snap
      | none => .error .decode

/-- The part of a body that the stored length covers. -/
def covered (body : List UInt8) : List UInt8 := body.take (body.length % 2 ^ 32)

theorem covered_of_lt {body : List UInt8} (h : body.length < 2 ^ 32) : covered body = body := by
  rw [covered, Nat.mod_eq_of_lt h, take_length]

/-- **What a reader makes of a written file**: it looks at the part the stored length covers, and
compares that with the checksum of the whole. -/
theorem readSnapshotFile_frame (body : List UInt8) :
    F.readSnapshotFile (F.frame body) =
      if F.xxh3 (covered body) ≠ F.xxh3 body then .error .crcMismatch
      else ((F.decodeBody (covered body)).map Except.ok).getD (.error .decode) := by
  have hlen : (F.frame body).length = 20 + body.length := by
    simp only [frame, length_append, length_leBytes, snapshotMagic, length_cons,
      length_nil]
  have hmagic : (F.frame body).take 4 = snapshotMagic := by
    simp only [frame, append_assoc]
    exact take_left' rfl
  -- the fields of the header, each behind the ones before it
  have hdrop4 : (F.frame body).drop 4 =
      leBytes 4 snapshotVersion ++ (leBytes 4 body.length ++ (leBytes 8 (F.xxh3 body) ++ body)) := by
    simp only [frame, append_assoc]
    exact drop_left' rfl
  have hdrop8 : (F.frame body).drop 8 = leBytes 4 body.length ++ (leBytes 8 (F.xxh3 body) ++ body) := by
    rw [show 8 = 4 + 4 from rfl, ← drop_drop, hdrop4]
    exact drop_left' (length_leBytes 4 _)
  have hdrop12 : (F.frame body).drop 12 = leBytes 8 (F.xxh3 body) ++ body := by
    rw [show 12 = 8 + 4 from rfl, ← drop_drop, hdrop8]
    exact drop_left' (length_leBytes 4 _)
  have hdrop20 : (F.frame body).drop 20 = body := by
    rw [show 20 = 12 + 8 from rfl, ← drop_drop, hdrop12]
    exact drop_left' (length_leBytes 8 _)
  have hversion : leNat (((F.frame body).drop 4).take 4) = snapshotVersion := by
    rw [hdrop4, take_left' (length_leBytes 4 _)]
    exact leNat_leBytes (by decide)
  have hbodyLen : leNat (((F.frame body).drop 8).take 4) = body.length % 2 ^ 32 := by
    rw [hdrop8, take_left' (length_leBytes 4 _), leNat_leBytes_mod]
    rfl
  have hcrc : leNat (((F.frame body).drop 12).take 8) = F.xxh3 body := by
    rw [hdrop12, take_left' (length_leBytes 8 _)]
    exact leNat_leBytes (F.xxh3_lt body)
  have hmod : body.length % 2 ^ 32 ≤ body.length := Nat.mod_le _ _
  unfold readSnapshotFile
  rw [if_neg (by rw [hlen, snapshotHeaderLen]; omega), if_neg (not_not.mpr hmagic),
    if_neg (not_not.mpr hversion)]
  simp only [hbodyLen, hcrc, snapshotHeaderLen, hdrop20]
  rw [if_neg (by rw [hlen]; omega)]
  unfold covered
  by_cases hx : F.xxh3 (body.take (body.length % 2 ^ 32)) = F.xxh3 body
  · rw [if_neg (not_not.mpr hx), if_neg (not_not.mpr hx)]
    cases F.decodeBody (body.take (body.length % 2 ^ 32)) <;> rfl
  · rw [if_pos hx, if_pos hx]

theorem readSnapshotFile_frame_of_lt (hF : F.RoundTrips) {snap : Snap} {body : List UInt8}
    (hbody : F.encodeBody snap = some body) (h : body.length < 2 ^ 32) :
    F.readSnapshotFile (F.frame body) = .ok snap := by
  rw [readSnapshotFile_frame, covered_of_lt h, if_neg (not_not.mpr rfl), hF snap body hbody]
  rfl

end SnapshotFormat

/-! ## The files of `meta/` -/

/-- `snapshot-<id>.bin` and `snapshot-<id>.bin.tmp`. -/
inductive SnapshotName where
  | final (id : Nat)
  | tmp (id : Nat)
  deriving DecidableEq, Repr

/-- The id `list_snapshot_files` parses from a name. -/
def SnapshotName.listed : SnapshotName → Option Nat
  | .final id => some id
  | .tmp _ => none

abbrev MetaDir := Disk SnapshotName UInt8

namespace MetaDir

/-- `list_snapshot_files`, ascending by id. -/
def listSnapshotFiles (d : MetaDir) : List Nat :=
  (d.dir.live.keys.filterMap SnapshotName.listed).insertionSort (· ≤ ·)

def nextSnapshotId (d : MetaDir) : Nat := ((listSnapshotFiles d).getLast?.map (· + 1)).getD 1

theorem mem_listSnapshotFiles {d : MetaDir} {id : Nat} :
    id ∈ listSnapshotFiles d ↔ ∃ i, d.lookup (.final id) = some i := by
  have hlisted : ∀ n : SnapshotName, n.listed = some id ↔ n = .final id := by
    intro n
    cases n with
    | final | tmp => simp [SnapshotName.listed]
  rw [listSnapshotFiles, mem_insertionSort, mem_filterMap]
  simp only [hlisted, exists_eq_right, ← AList.mem_keys, ← AList.lookup_isSome,
    isSome_iff_exists]
  rfl

theorem lt_nextSnapshotId {d : MetaDir} {id : Nat} (h : id ∈ listSnapshotFiles d) :
    id < nextSnapshotId d := by
  have hsorted : (listSnapshotFiles d).Pairwise (· ≤ ·) := pairwise_insertionSort _ _
  cases hlast : (listSnapshotFiles d).getLast? with
  | none =>
    rw [getLast?_eq_none_iff] at hlast
    rw [hlast] at h
    cases h
  | some last =>
    obtain ⟨init, hinit⟩ := getLast?_eq_some_iff.mp hlast
    rw [nextSnapshotId, hlast]
    rw [hinit] at h hsorted
    rcases mem_append.mp h with hid | hid
    · have hle := (pairwise_append.mp hsorted).2.2 id hid last mem_cons_self
      exact Nat.lt_succ_of_le hle
    · rw [mem_singleton.mp hid]
      exact Nat.lt_succ_self last

variable {Snap : Type} (F : SnapshotFormat Snap)

def valid (d : MetaDir) (id : Nat) : Option Snap :=
  (d.read (.final id)).bind fun buf => (F.readSnapshotFile buf).toOption

/-- `load_latest`: newest first, the invalid ones skipped. -/
def loadLatest (d : MetaDir) : Option Snap := (listSnapshotFiles d).reverse.findSome? (valid F d)

variable {F} {d : MetaDir}

theorem mem_of_valid {id : Nat} {snap : Snap} (h : valid F d id = some snap) :
    id ∈ listSnapshotFiles d := by
  obtain ⟨buf, hread, -⟩ := bind_eq_some_iff.mp h
  obtain ⟨i, hi, -⟩ := map_eq_some_iff.mp hread
  exact mem_listSnapshotFiles.mpr ⟨i, hi⟩

/-- **The loader returns a valid file, and no newer one is valid.** -/
theorem loadLatest_eq_some {snap : Snap} (h : loadLatest F d = some snap) :
    ∃ id, valid F d id = some snap ∧ ∀ id', id < id' → valid F d id' = none := by
  obtain ⟨newer, id, older, hsplit, hvalid, hnone⟩ := findSome?_eq_some_iff.mp h
  refine ⟨id, hvalid, fun id' hlt => ?_⟩
  by_contra hsome
  obtain ⟨snap', hsnap'⟩ := ne_none_iff_exists'.mp hsome
  have hmem : id' ∈ newer ++ id :: older := by
    rw [← hsplit]
    exact mem_reverse.mpr (mem_of_valid hsnap')
  have hsorted : (newer ++ id :: older).Pairwise (fun a b => b ≤ a) := by
    rw [← hsplit, pairwise_reverse]
    exact pairwise_insertionSort _ _
  -- everything behind `id` in the list is at most `id`
  rcases mem_append.mp hmem with hnewer | hrest
  · exact hsome (hnone id' hnewer)
  · rcases mem_cons.mp hrest with rfl | holder
    · exact lt_irrefl _ hlt
    · have hle := rel_of_pairwise_cons (pairwise_append.mp hsorted).2.1 holder
      exact Nat.not_le_of_lt hlt hle

theorem loadLatest_eq_none (h : loadLatest F d = none) (id : Nat) : valid F d id = none := by
  by_contra hsome
  obtain ⟨snap, hsnap⟩ := ne_none_iff_exists'.mp hsome
  have := findSome?_eq_none_iff.mp h id (mem_reverse.mpr (mem_of_valid hsnap))
  exact hsome this

/-! ## Writing -/

variable (F)

/-- The new file: written and synced under its temporary name, renamed, and the directory synced. -/
def install (d : MetaDir) (id : Nat) (framed : List UInt8) : MetaDir :=
  let opened := d.create (.tmp id)
  let d := (opened.1.append opened.2 framed).fsync opened.2
  (d.rename (.tmp id) (.final id)).syncDir

/-- The removal of the files a new snapshot replaces. -/
def prune (d : MetaDir) (id : Nat) : MetaDir :=
  ((listSnapshotFiles d).filter (· < id)).foldl (fun d old => d.unlink (.final old)) d

/-- `write_snapshot_with` where no file operation fails. -/
def writeSnapshotWith (d : MetaDir) (snap : Snap) : Except SnapshotError MetaDir :=
  match F.encodeBody snap with
  | none => .error .encode
  | some body => .ok (prune (install d (F.id snap) (F.frame body)) (F.id snap))

theorem lookup_install (d : MetaDir) (id : Nat) (framed : List UInt8) : ∃ f,
    (∀ id', (install d id framed).lookup (.final id') =
      if id' = id then some f else d.lookup (.final id')) ∧
    ((install d id framed).file f).bytes = framed := by
  have htmp : (d.create (.tmp id)).1.lookup (.tmp id) = some (d.create (.tmp id)).2 := by
    rw [Disk.lookup_create, if_pos rfl]
  refine ⟨(d.create (.tmp id)).2, fun id' => ?_, ?_⟩
  · have hrename := Disk.lookup_rename
      (d := ((d.create (.tmp id)).1.append (d.create (.tmp id)).2 framed).fsync (d.create (.tmp id)).2)
      (b := .final id) htmp (.final id')
    refine hrename.trans ?_
    rw [if_neg (by simp)]
    simp only [SnapshotName.final.injEq]
    refine if_congr Iff.rfl rfl ?_
    exact (Disk.lookup_create d _ _).trans (if_neg (by simp))
  · simp only [install, Disk.syncDir, (Disk.file_rename _ _ _).1, Disk.fsync, Disk.append,
      Disk.setFile, Function.update_self, Disk.bytes_create, nil_append]

theorem lookup_foldl_unlink (ids : List Nat) (d : MetaDir) (id : Nat) :
    (ids.foldl (fun d old => d.unlink (.final old)) d).lookup (.final id) =
      if id ∈ ids then none else d.lookup (.final id) := by
  induction ids generalizing d with
  | nil => rfl
  | cons old ids ih =>
    rw [foldl_cons, ih]
    rw [Disk.lookup_unlink]
    by_cases hold : id = old
    all_goals simp [hold]

theorem file_foldl_unlink (ids : List Nat) (d : MetaDir) :
    (ids.foldl (fun d old => d.unlink (.final old)) d).file = d.file := by
  induction ids generalizing d with
  | nil => rfl
  | cons old ids ih => rw [foldl_cons, ih]; rfl

theorem lookup_prune (d : MetaDir) (keep id : Nat) :
    (prune d keep).lookup (.final id) = if id < keep then none else d.lookup (.final id) := by
  rw [prune, lookup_foldl_unlink]
  by_cases hlt : id < keep
  · rw [if_pos hlt]
    split
    · rfl
    · rename_i hmem
      cases hlook : d.lookup (.final id) with
      | none => rfl
      | some i =>
        exact absurd (mem_filter.mpr ⟨mem_listSnapshotFiles.mpr ⟨i, hlook⟩, by simpa using hlt⟩)
          hmem
  · rw [if_neg hlt, if_neg fun hmem => hlt (by simpa using (mem_filter.mp hmem).2)]

variable {F}

theorem writeSnapshotWith_spec {d' : MetaDir} {snap : Snap}
    (h : writeSnapshotWith F d snap = .ok d') :
    ∃ body, F.encodeBody snap = some body ∧
      d'.read (.final (F.id snap)) = some (F.frame body) ∧
      ∀ id i, d'.lookup (.final id) = some i → id = F.id snap ∨
        (F.id snap < id ∧ d.lookup (.final id) = some i) := by
  unfold writeSnapshotWith at h
  cases hbody : F.encodeBody snap with
  | none =>
    rw [hbody] at h
    cases h
  | some body =>
    rw [hbody] at h
    obtain rfl := Except.ok.inj h
    obtain ⟨f, hnames, hbytes⟩ := lookup_install d (F.id snap) (F.frame body)
    refine ⟨body, rfl, ?_, fun id i hi => ?_⟩
    · rw [Disk.read, lookup_prune, if_neg (lt_irrefl _), hnames, if_pos rfl, map_some,
        prune, file_foldl_unlink, hbytes]
    · rw [lookup_prune] at hi
      split at hi
      · cases hi
      · rw [hnames] at hi
        by_cases hk : id = F.id snap
        · exact .inl hk
        · rw [if_neg hk] at hi
          exact .inr ⟨by omega, hi⟩

end MetaDir

/-! ## `Engine::write_snapshot` -/

/-- The parts of the engine that `write_snapshot` reads: the files of its data directory, its log,
and what `capture` would make of its topics and routers under a given id. -/
structure SnapshotEngine {Snap : Type} (F : SnapshotFormat Snap) (Blob : Type) where
  /-- Whether the engine has a data directory. -/
  hasDataDir : Bool
  metaDir : MetaDir
  wal : DataDir Blob
  /-- The shards of the running log, if there is one. -/
  walShards : Option Nat
  capture : Nat → Option Snap
  capture_id : ∀ id snap, capture id = some snap → F.id snap = id

namespace SnapshotEngine

variable {Snap : Type} {F : SnapshotFormat Snap} {Blob : Type}

/-- `Engine::write_snapshot` where no file operation fails. -/
def writeSnapshot (e : SnapshotEngine F Blob) :
    Except SnapshotError (Bool × SnapshotEngine F Blob) :=
  match e.walShards, e.capture (MetaDir.nextSnapshotId e.metaDir) with
  | some shards, some snap =>
    if !e.hasDataDir then .ok (false, e)
    else
      match MetaDir.writeSnapshotWith F e.metaDir snap with
      | .error err => .error err
      | .ok metaDir =>
        .ok (true, { e with
          metaDir := metaDir
          wal := e.wal.dropAbsorbedWalFiles (F.checkpoint snap).shardPositions (max shards 1)
            fun k => (e.wal.files k).length })
  | _, _ => .ok (false, e)

theorem writeSnapshot_true {e e' : SnapshotEngine F Blob} (h : e.writeSnapshot = .ok (true, e')) :
    ∃ snap, e.capture (MetaDir.nextSnapshotId e.metaDir) = some snap ∧
      MetaDir.writeSnapshotWith F e.metaDir snap = .ok e'.metaDir := by
  unfold writeSnapshot at h
  split at h
  · rename_i shards snap _ hcapture
    split at h
    · cases h
    · split at h
      · cases h
      · rename_i metaDir hwrite
        cases h
        exact ⟨snap, hcapture, hwrite⟩
  · cases h

theorem loadLatest_writeSnapshot {e e' : SnapshotEngine F Blob}
    (h : e.writeSnapshot = .ok (true, e')) :
    ∃ snap body, e.capture (MetaDir.nextSnapshotId e.metaDir) = some snap ∧
      F.encodeBody snap = some body ∧
      MetaDir.loadLatest F e'.metaDir = (F.readSnapshotFile (F.frame body)).toOption := by
  obtain ⟨snap, hcapture, hwrite⟩ := writeSnapshot_true h
  obtain ⟨body, hbody, hread, honly⟩ := MetaDir.writeSnapshotWith_spec hwrite
  have hid := e.capture_id _ _ hcapture
  refine ⟨snap, body, hcapture, hbody, ?_⟩
  -- the id of the new file is above every other, so nothing else is left
  have hsole : ∀ id found, MetaDir.valid F e'.metaDir id = some found → id = F.id snap := by
    intro id found hvalid
    obtain ⟨i, hi⟩ := MetaDir.mem_listSnapshotFiles.mp (MetaDir.mem_of_valid hvalid)
    rcases honly id i hi with hnew | ⟨hlt, hold⟩
    · exact hnew
    · have := MetaDir.lt_nextSnapshotId (MetaDir.mem_listSnapshotFiles.mpr ⟨i, hold⟩)
      omega
  have hvalid : MetaDir.valid F e'.metaDir (F.id snap) =
      (F.readSnapshotFile (F.frame body)).toOption := by
    rw [MetaDir.valid, hread, bind_some]
  rw [← hvalid]
  cases hload : MetaDir.loadLatest F e'.metaDir with
  | none => exact (MetaDir.loadLatest_eq_none hload _).symm
  | some found =>
    obtain ⟨id, hfound, -⟩ := MetaDir.loadLatest_eq_some hload
    rw [hsole id found hfound] at hfound
    exact hfound.symm

/-- **A written snapshot loads back exactly if its body is shorter than 2^32 bytes**, provided that
XXH3 tells the body from the part of it the stored length covers.  Otherwise nothing loads. -/
theorem writeSnapshot_loads_iff (hF : F.RoundTrips) {e e' : SnapshotEngine F Blob}
    (h : e.writeSnapshot = .ok (true, e')) :
    ∃ snap body, e.capture (MetaDir.nextSnapshotId e.metaDir) = some snap ∧
      F.encodeBody snap = some body ∧
      ((2 ^ 32 ≤ body.length → F.xxh3 (SnapshotFormat.covered body) ≠ F.xxh3 body) →
        (MetaDir.loadLatest F e'.metaDir = some snap ↔ body.length < 2 ^ 32) ∧
        (2 ^ 32 ≤ body.length → MetaDir.loadLatest F e'.metaDir = none)) := by
  obtain ⟨snap, body, hcapture, hbody, hload⟩ := loadLatest_writeSnapshot h
  refine ⟨snap, body, hcapture, hbody, fun hxxh3 => ?_⟩
  have hnone : 2 ^ 32 ≤ body.length → MetaDir.loadLatest F e'.metaDir = none := by
    intro hlong
    rw [hload, SnapshotFormat.readSnapshotFile_frame, if_pos (hxxh3 hlong)]
    rfl
  refine ⟨⟨fun hsome => ?_, fun hshort => ?_⟩, hnone⟩
  · by_contra hlong
    rw [hnone (not_lt.mp hlong)] at hsome
    cases hsome
  · rw [hload, F.readSnapshotFile_frame_of_lt hF hbody hshort]
    rfl

end SnapshotEngine

/-! ## A short and a long body -/

/-- Snapshots that are an id and a number, written in unary.  The checksum tells short bodies from
long ones. -/
def unaryFormat : SnapshotFormat (Nat × Nat) where
  id := Prod.fst
  checkpoint _ := ⟨2, 0, [], []⟩
  encodeBody snap := some (List.replicate (Nat.pair snap.1 snap.2) 0)
  decodeBody body := some (Nat.unpair body.length)
  xxh3 body := if body.length < 2 ^ 32 then 0 else 1
  xxh3_lt body := by split <;> decide

theorem roundTrips_unaryFormat : unaryFormat.RoundTrips := by
  intro snap body hbody
  cases hbody
  simp only [unaryFormat, length_replicate, Nat.unpair_pair]

theorem xxh3_unaryFormat {body : List UInt8} (h : 2 ^ 32 ≤ body.length) :
    unaryFormat.xxh3 (SnapshotFormat.covered body) ≠ unaryFormat.xxh3 body := by
  have hcovered : (SnapshotFormat.covered body).length < 2 ^ 32 := by
    rw [SnapshotFormat.covered, length_take]
    exact (min_le_left _ _).trans_lt (Nat.mod_lt _ (by decide))
  simp only [unaryFormat, if_pos hcovered, if_neg h.not_gt]
  decide

/-- An engine over a log with two files, whose topics make a body of about `size ^ 2` bytes. -/
def unaryEngine (size : Nat) : SnapshotEngine unaryFormat Unit where
  hasDataDir := true
  metaDir := .empty
  wal := ⟨fun _ => [⟨1, []⟩, ⟨2, []⟩], [], none⟩
  walShards := some 1
  capture id := some (id, size)
  capture_id id snap h := by cases h; rfl

theorem writeSnapshot_unaryEngine (size : Nat) : ∃ e', (unaryEngine size).writeSnapshot = .ok (true, e') ∧
    (e'.wal.files .flat).map WalFile.idx = [2] :=
  ⟨_, rfl, rfl⟩

theorem capture_unaryEngine {size : Nat} {snap : Nat × Nat}
    (h : (unaryEngine size).capture (MetaDir.nextSnapshotId (unaryEngine size).metaDir) = some snap) :
    snap = (1, size) :=
  (some.inj h).symm

theorem writeSnapshot_loads_small : ∃ e', (unaryEngine 3).writeSnapshot = .ok (true, e') ∧
    MetaDir.loadLatest unaryFormat e'.metaDir = some (1, 3) := by
  obtain ⟨e', hwrite, -⟩ := writeSnapshot_unaryEngine 3
  obtain ⟨snap, body, hcapture, hbody, hloads⟩ :=
    SnapshotEngine.writeSnapshot_loads_iff roundTrips_unaryFormat hwrite
  obtain rfl := capture_unaryEngine hcapture
  obtain rfl := some.inj hbody
  refine ⟨e', hwrite, (hloads xxh3_unaryFormat).1.mpr ?_⟩
  rw [length_replicate]
  decide +kernel

/-- **A body of 4 900 000 001 bytes.**  `write_snapshot` returns `Ok(true)` and has removed the
absorbed log file, and no snapshot can be loaded. -/
theorem oversized_snapshot : ∃ e', (unaryEngine 70000).writeSnapshot = .ok (true, e') ∧
    (e'.wal.files .flat).map WalFile.idx = [2] ∧
    MetaDir.loadLatest unaryFormat e'.metaDir = none := by
  obtain ⟨e', hwrite, hwal⟩ := writeSnapshot_unaryEngine 70000
  refine ⟨e', hwrite, hwal, ?_⟩
  obtain ⟨snap, body, hcapture, hbody, hload⟩ := SnapshotEngine.loadLatest_writeSnapshot hwrite
  obtain rfl := capture_unaryEngine hcapture
  obtain rfl := some.inj hbody
  have hlong : 2 ^ 32 ≤ (replicate (Nat.pair 1 70000) (0 : UInt8)).length := by
    rw [length_replicate]
    decide +kernel
  rw [hload, SnapshotFormat.readSnapshotFile_frame, if_pos (xxh3_unaryFormat hlong)]
  rfl

end Topics
