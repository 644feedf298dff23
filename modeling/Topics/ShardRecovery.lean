import Topics.ShardLayouts

/-!
# Recovery after changes of the shard count

The invariant of `Deployment` and what follows from it for every recovery: the latest snapshot's
position for a group that still has files is not behind the end of the group, and recovery from it
applies what was written since.

A group the snapshot recorded and then emptied keeps its position until the next snapshot.  That
is harmless as long as nothing is written there.
-/

namespace Topics

open Lib Function List

variable {Blob : Type} {size : WalRecord Blob → Nat} {capacity : Nat}

theorem shardGroupKey_inj {s s' n : Nat} (hs : s < n) (hs' : s' < n)
    (h : shardGroupKey s n = shardGroupKey s' n) : s = s' := by
  unfold shardGroupKey at h
  split at h
  · omega
  · cases h
    rfl

theorem mem_currentDirs {n : Nat} {k : GroupKey} :
    k ∈ currentDirs n ↔ ∃ s < n, shardGroupKey s n = k := by
  simp [currentDirs]

theorem truncateActive_resumeAt {files : List (WalFile Blob)} (hord : Ordered files)
    (hne : files ≠ []) : truncateActive size files (resumeAt size files) = some files := by
  rcases eq_nil_or_concat' files with rfl | ⟨init, f, rfl⟩
  · exact absurd rfl hne
  rw [resumeAt_concat, truncateActive, if_pos (by simp)]
  refine congrArg some ((map_congr_left fun g hg => ?_).trans (map_id _))
  rcases mem_append.mp hg with hg | hg
  · exact if_neg (Nat.ne_of_lt ((pairwise_append.mp hord).2.2 g hg f mem_cons_self))
  · -- the active file is cut at the end of its frames
    cases mem_singleton.mp hg
    rw [if_pos rfl]
    exact congrArg (WalFile.mk f.idx) (setLen_encodedLen f.frames)

theorem activeTail_eq {ckpt : Nat × Nat} {files : List (WalFile Blob)} (hne : files ≠ [])
    (h : WalGroup.Before ckpt (resumeAt size files)) :
    activeTail size ckpt files = resumeAt size files := by
  rcases eq_nil_or_concat' files with rfl | ⟨init, f, rfl⟩
  · exact absurd rfl hne
  rw [resumeAt_concat] at h ⊢
  have hidx : ¬ f.idx < ckpt.1 := by
    rcases h with h | h <;> omega
  simp [activeTail, hidx]

namespace DataDir

structure WellFormed (d : DataDir Blob) : Prop where
  ordered : ∀ k, Ordered (d.files k)
  listed : ∀ s, d.files (.shard s) ≠ [] → s ∈ d.shardDirs
  nodup : d.shardDirs.Nodup

variable {d : DataDir Blob} {k : GroupKey} {n : Nat}

theorem mem_discoverShardGroups :
    k ∈ d.discoverShardGroups ↔
      (k = .flat ∧ d.files .flat ≠ []) ∨ ∃ s ∈ d.shardDirs, GroupKey.shard s = k := by
  by_cases h : d.files .flat = [] <;> simp [discoverShardGroups, h]

namespace WellFormed

variable {d : DataDir Blob}

theorem discovered (h : d.WellFormed) {k : GroupKey} (hk : d.files k ≠ []) :
    k ∈ d.discoverShardGroups := by
  rw [mem_discoverShardGroups]
  cases k with
  | flat => exact Or.inl ⟨rfl, hk⟩
  | shard s => exact Or.inr ⟨s, h.listed s hk, rfl⟩

theorem nodup_discoverShardGroups (h : d.WellFormed) : d.discoverShardGroups.Nodup := by
  refine (perm_insertionSort _ _).nodup_iff.mpr ?_
  have hshards : (d.shardDirs.map GroupKey.shard).Nodup :=
    h.nodup.map fun _ _ heq => GroupKey.shard.inj heq
  split
  · exact hshards
  · refine nodup_cons.mpr ⟨?_, hshards⟩
    simp

theorem nodup_replayGroups (h : d.WellFormed) (n : Nat) : (d.replayGroups n).Nodup :=
  (perm_insertionSort _ _).nodup_iff.mpr h.nodup_discoverShardGroups

end WellFormed

theorem mem_replayGroups :
    k ∈ d.replayGroups n ↔ k ∈ d.discoverShardGroups :=
  (perm_insertionSort _ _).mem_iff

/-- The checkpoint positions recovery starts from are not behind the ends of their groups. -/
def Covered (size : WalRecord Blob → Nat) (d : DataDir Blob) : Prop :=
  ∀ k, d.files k ≠ [] → WalGroup.Before (d.ckptFor k) (resumeAt size (d.files k))

theorem truncateTails_eq (hwf : d.WellFormed) (hcov : d.Covered size) (groups : List GroupKey) :
    d.truncateTails size groups = some d.files := by
  unfold truncateTails
  induction groups with
  | nil => rfl
  | cons k groups ih =>
    rw [foldlM_cons]
    by_cases hk : d.files k = []
    · simpa [hk] using ih
    · have htrunc : truncateActive size (d.files k) (resumeAt size (d.files k)) =
          some (d.files k) := truncateActive_resumeAt (hwf.ordered k) hk
      rw [← activeTail_eq hk (hcov k hk)] at htrunc
      simpa [hk, htrunc] using ih

/-! ## The frames that are applied -/

private theorem scan_tagged (g : GroupKey → List (WalRecord Blob)) (seen groups : List GroupKey) :
    (((groups.map g).zipIdx seen.length).flatMap fun p =>
        p.1.zipIdx.map fun f => ((seen ++ groups).getD p.2 .flat, f.1)) =
      groups.flatMap fun k => (g k).map fun f => (k, f) := by
  induction groups generalizing seen with
  | nil => rfl
  | cons k groups ih =>
    have hrest := ih (seen ++ [k])
    rw [length_append, append_assoc] at hrest
    rw [map_cons, zipIdx_cons, flatMap_cons, flatMap_cons]
    refine congrArg₂ (· ++ ·) ?_ hrest
    have hfst : ((g k).zipIdx.map fun f => (k, f.1)) = (g k).map fun f => (k, f) := by
      conv_rhs => rw [← zipIdx_map_fst 0 (g k), map_map]
      rfl
    simpa using hfst

theorem scan_groupFrames (g : GroupKey → List (WalRecord Blob)) (groups : List GroupKey) :
    (scan (groups.map g)).map (fun e => (groups.getD e.go .flat, e.frame)) =
      groups.flatMap fun k => (g k).map fun f => (k, f) := by
  have h := scan_tagged g [] groups
  rw [← h, scan, map_flatMap]
  refine flatMap_congr fun p _ => ?_
  rw [map_map]
  rfl

theorem filter_tagged {g : GroupKey → List (WalRecord Blob)} {groups : List GroupKey}
    (hnodup : groups.Nodup) (hk : k ∉ groups → g k = []) :
    ((groups.flatMap fun k => (g k).map fun f => (k, f)).filter fun e => e.1 = k).map Prod.snd =
      g k := by
  induction groups with
  | nil => exact (hk not_mem_nil).symm
  | cons k' groups ih =>
    obtain ⟨hk', hnodup⟩ := nodup_cons.mp hnodup
    rw [flatMap_cons, filter_append, map_append]
    by_cases heq : k' = k
    · subst heq
      have hrest : (groups.flatMap fun k => (g k).map fun f => (k, f)).filter
          (fun e => e.1 = k') = [] := by
        refine filter_eq_nil_iff.mpr fun e he hek => hk' ?_
        obtain ⟨k, hmem, he⟩ := mem_flatMap.mp he
        obtain ⟨f, -, rfl⟩ := mem_map.mp he
        exact of_decide_eq_true hek ▸ hmem
      have hself : ((g k').map fun f => (k', f)).filter (fun e => e.1 = k') =
          (g k').map fun f => (k', f) := by
        refine filter_eq_self.mpr fun e he => ?_
        obtain ⟨f, -, rfl⟩ := mem_map.mp he
        exact decide_eq_true rfl
      rw [hrest, hself, map_nil, append_nil, map_map]
      exact map_id _
    · have hhead : ((g k').map fun f => (k', f)).filter (fun e => e.1 = k) = [] := by
        refine filter_eq_nil_iff.mpr fun e he hek => heq ?_
        obtain ⟨f, -, rfl⟩ := mem_map.mp he
        exact of_decide_eq_true hek
      rw [hhead, map_nil, nil_append]
      exact ih hnodup fun hmem => hk fun h => (mem_cons.mp h).elim (heq ·.symm) hmem

theorem recover_eq (hwf : d.WellFormed) (hcov : d.Covered size) (n : Nat) (order : List Nat) :
    d.recover size n order = some
      { dir := d.openAt n
        resume := fun s => resumeAt size (d.files (shardGroupKey s n))
        applied := (replayOrder ((d.replayGroups n).map (d.groupFrames size)) order).map
          fun e => ((d.replayGroups n).getD e.go .flat, e.frame) } := by
  simp only [recover, truncateTails_eq hwf hcov, Option.map_some]

theorem applied_perm (hwf : d.WellFormed) {order : List Nat} (hnodup : order.Nodup)
    (hmem : ∀ id, id ∈ order ↔
      isSplit ((d.replayGroups n).map (d.groupFrames size)) id = true) (k : GroupKey) :
    ((((replayOrder ((d.replayGroups n).map (d.groupFrames size)) order).map
      fun e => ((d.replayGroups n).getD e.go .flat, e.frame)).filter
        fun e => e.1 = k).map Prod.snd).Perm (d.groupFrames size k) := by
  have hperm := ((replayOrder_perm hnodup hmem).map
    fun e => ((d.replayGroups n).getD e.go .flat, e.frame)).filter (fun e => decide (e.1 = k))
  refine (hperm.map Prod.snd).trans (List.Perm.of_eq ?_)
  rw [scan_groupFrames]
  refine filter_tagged (hwf.nodup_replayGroups n) fun hk => ?_
  -- a group recovery does not find has no files
  by_cases hfiles : d.files k = []
  · rw [groupFrames, hfiles]
    rfl
  · exact absurd (mem_replayGroups.mpr (hwf.discovered hfiles)) hk

/-! ## The positions a snapshot records -/

theorem positionForKey_ofKeyed {keyed : List (GroupKey × (Nat × Nat))} {v : GroupKey → Nat × Nat}
    (hne : keyed ≠ []) (hv : ∀ e ∈ keyed, e.2 = v e.1) (k : GroupKey) :
    (Checkpoint.ofKeyed keyed).positionForKey k =
      if k ∈ keyed.map Prod.fst then some (v k) else none := by
  have hkeys : (Checkpoint.ofKeyed keyed).shardKeys ≠ [] := by simpa [Checkpoint.ofKeyed] using hne
  rw [Checkpoint.positionForKey.eq_def, if_pos hkeys]
  cases hidx : (Checkpoint.ofKeyed keyed).shardKeys.idxOf? k with
  | none =>
    have hmem : k ∉ keyed.map Prod.fst := idxOf?_eq_none_iff.mp hidx
    rw [if_neg hmem]
    rfl
  | some i =>
    obtain ⟨hi, hk, -⟩ := idxOf?_eq_some_iff.mp hidx
    have hmem : k ∈ keyed.map Prod.fst := hk ▸ getElem_mem hi
    simp only [Checkpoint.ofKeyed, length_map, getElem_map] at hi hk
    rw [if_pos hmem, ← hk, ← hv _ (getElem_mem hi)]
    simp [Checkpoint.ofKeyed, hi]

theorem mem_discoverGroupTails {e : GroupKey × (Nat × Nat)} :
    e ∈ d.discoverGroupTails size ↔
      e.1 ∈ d.discoverShardGroups ∧ d.files e.1 ≠ [] ∧ e.2 = resumeAt size (d.files e.1) := by
  simp only [discoverGroupTails, mem_filterMap]
  constructor
  · rintro ⟨k, hk, he⟩
    obtain ⟨hne, ⟨⟩⟩ := Option.ite_none_left_eq_some.mp he
    exact ⟨hk, by simpa using hne, rfl⟩
  · rintro ⟨hk, hne, he⟩
    refine ⟨e.1, hk, ?_⟩
    rw [if_neg (by simpa using hne), ← he]

section Capture

variable {d : DataDir Blob} {n : Nat} {position : Nat → Nat × Nat}

/-- What is known of the running writers: their files exist, and each stands at the end of its
group. -/
def AtTails (size : WalRecord Blob → Nat) (d : DataDir Blob) (n : Nat)
    (position : Nat → Nat × Nat) : Prop :=
  ∀ s < n, d.files (shardGroupKey s n) ≠ [] ∧
    position s = resumeAt size (d.files (shardGroupKey s n))

theorem capture_positionForKey (hwf : d.WellFormed) (hn : 0 < n)
    (hpos : AtTails size d n position) (k : GroupKey) :
    (d.capture size n position).positionForKey k =
      if d.files k = [] then none else some (resumeAt size (d.files k)) := by
  unfold capture
  extract_lets keyed
  have hcur : ∀ e ∈ keyed, d.files e.1 ≠ [] ∧ e.2 = resumeAt size (d.files e.1) := by
    intro e he
    obtain ⟨s, hs, rfl⟩ := mem_map.mp he
    exact hpos s (mem_range.mp hs)
  generalize hall : keyed ++ (d.discoverGroupTails size).filter
    (fun e => !(keyed.map Prod.fst).contains e.1) = all
  have hval : ∀ e ∈ all, d.files e.1 ≠ [] ∧ e.2 = resumeAt size (d.files e.1) := by
    intro e he
    rw [← hall] at he
    rcases mem_append.mp he with he | he
    · exact hcur e he
    · exact (mem_discoverGroupTails.mp (mem_filter.mp he).1).2
  have hmem : k ∈ all.map Prod.fst ↔ d.files k ≠ [] := by
    constructor
    · intro hk
      obtain ⟨e, he, rfl⟩ := mem_map.mp hk
      exact (hval e he).1
    · intro hk
      rw [← hall, map_append]
      by_cases hkey : k ∈ keyed.map Prod.fst
      · exact mem_append_left _ hkey
      · refine mem_append_right _ (mem_map.mpr ⟨(k, resumeAt size (d.files k)), ?_, rfl⟩)
        refine mem_filter.mpr ⟨mem_discoverGroupTails.mpr ⟨hwf.discovered hk, hk, rfl⟩, ?_⟩
        simpa using hkey
  have hne : all ≠ [] := by
    have hfirst : (shardGroupKey 0 n, position 0) ∈ all := by
      rw [← hall]
      exact mem_append_left _ (mem_map.mpr ⟨0, mem_range.mpr hn, rfl⟩)
    exact ne_nil_of_mem hfirst
  rw [positionForKey_ofKeyed (v := fun k => resumeAt size (d.files k)) hne
    fun e he => (hval e he).2]
  by_cases hk : d.files k = []
  · rw [if_pos hk, if_neg fun h => hmem.mp h hk]
  · rw [if_neg hk, if_pos (hmem.mpr hk)]

theorem capture_shardPositions {s : Nat} (hs : s < n) :
    (d.capture size n position).shardPositions.getD s (0, 0) = position s := by
  have hshards : (d.capture size n position).shards ≠ [] := by
    refine ne_nil_of_mem (a := position s) ?_
    simp only [capture, Checkpoint.ofKeyed, map_append, mem_append]
    exact Or.inl (by simpa using ⟨s, hs, rfl⟩)
  rw [Checkpoint.shardPositions, if_neg hshards]
  simp [capture, Checkpoint.ofKeyed, getElem?_append, hs]

end Capture

end DataDir

/-! ## The invariant -/

namespace Deployment

/-- What the deletions of a snapshot over `n` shards rely on: it recorded each writer's position
under the key of its directory, and nothing was written elsewhere since. -/
def Keeps (n : Nat) (c : Checkpoint) (fresh : GroupKey → List (WalRecord Blob)) : Prop :=
  (∀ s < n, c.shardPositions.getD s (0, 0) = (c.positionForKey (shardGroupKey s n)).getD (0, 0)) ∧
    ∀ k ∉ currentDirs n, fresh k = []

def PhaseOk (size : WalRecord Blob → Nat) (d : Deployment Blob) : Prop :=
  match d.phase with
  | .captured c => ∃ n, d.running = some n ∧ Keeps n c d.since ∧
      ∀ k, Resumes size ((c.positionForKey k).getD (0, 0)) (d.dir.files k) (d.since k)
  | .written c => ∃ n, d.running = some n ∧ Keeps n c d.after ∧ d.dir.checkpoint = some c
  | _ => True

/-- The invariant: recovery from the latest snapshot would apply `after`. -/
structure Inv (size : WalRecord Blob → Nat) (d : Deployment Blob) : Prop where
  wf : d.dir.WellFormed
  writers : ∀ n, d.running = some n → 0 < n ∧ d.dir.AtTails size n d.position
  after : ∀ k, Resumes size (d.dir.ckptFor k) (d.dir.files k) (d.after k)
  phase : d.PhaseOk size

theorem inv_init : Inv size (init : Deployment Blob) where
  wf := ⟨fun _ => List.Pairwise.nil, fun _ h => absurd rfl h, nodup_nil⟩
  writers := fun _ h => nomatch h
  after := fun _ => .nil _
  phase := trivial

theorem Inv.covered {d : Deployment Blob} (h : Inv size d) : d.dir.Covered size :=
  fun k hk => (h.after k).before hk

/-! ### A batch -/

section Commit

variable {d : Deployment Blob} {n s : Nat} {batch : List (WalRecord Blob)}

variable {fresh : GroupKey → List (WalRecord Blob)}

private theorem Inv.resumes_commit (hsize : Sized size) (h : Inv size d)
    (hrun : d.running = some n) (hs : s < n) {pos : GroupKey → Nat × Nat}
    (hres : ∀ k, Resumes size (pos k) (d.dir.files k) (fresh k)) (k : GroupKey) :
    Resumes size (pos k) ((d.commit size capacity n s batch).dir.files k)
      (Function.update fresh (shardGroupKey s n) (fresh (shardGroupKey s n) ++ batch) k) := by
  obtain ⟨hne, hpos⟩ := (h.writers n hrun).2 s hs
  by_cases hk : k = shardGroupKey s n
  · subst hk
    simp only [commit, update_self, hpos]
    exact (hres _).append hsize (h.wf.ordered _) hne batch
  · simp only [commit, update_of_ne hk]
    exact hres k

private theorem Keeps.commit {c : Checkpoint} (h : Keeps n c fresh) (hs : s < n) :
    Keeps n c
      (Function.update fresh (shardGroupKey s n) (fresh (shardGroupKey s n) ++ batch)) := by
  refine ⟨h.1, fun k hk => ?_⟩
  have hne : k ≠ shardGroupKey s n := fun heq => hk (mem_currentDirs.mpr ⟨s, hs, heq.symm⟩)
  rw [update_of_ne hne]
  exact h.2 k hk

private theorem Inv.wellFormed_commit (h : Inv size d) (hrun : d.running = some n) (hs : s < n) :
    (d.commit size capacity n s batch).dir.WellFormed := by
  obtain ⟨hne, hpos⟩ := (h.writers n hrun).2 s hs
  refine ⟨fun k => ?_, fun s' hs' => ?_, h.wf.nodup⟩
  · by_cases hk : k = shardGroupKey s n
    · subst hk
      simp only [Deployment.commit, update_self, hpos]
      exact (h.wf.ordered _).append hne batch
    · simp only [Deployment.commit, update_of_ne hk]
      exact h.wf.ordered k
  · refine h.wf.listed s' ?_
    by_cases hk : GroupKey.shard s' = shardGroupKey s n
    · rw [hk]
      exact hne
    · simp only [Deployment.commit, update_of_ne hk] at hs'
      exact hs'

private theorem Inv.atTails_commit (h : Inv size d) (hrun : d.running = some n) (hs : s < n) :
    (d.commit size capacity n s batch).dir.AtTails size n
      (d.commit size capacity n s batch).position := by
  obtain ⟨hne, hpos⟩ := (h.writers n hrun).2 s hs
  intro s' hs'
  by_cases heq : s' = s
  · subst heq
    simp only [Deployment.commit, update_self, hpos]
    exact ⟨appendFiles_ne_nil hne _ _, (resumeAt_append (h.wf.ordered _) hne batch).symm⟩
  · -- the other writers have directories of their own
    have hk : shardGroupKey s' n ≠ shardGroupKey s n := fun h => heq (shardGroupKey_inj hs' hs h)
    simp only [Deployment.commit, update_of_ne hk, update_of_ne heq]
    exact (h.writers n hrun).2 s' hs'

theorem Inv.commit (hsize : Sized size) (h : Inv size d) (hrun : d.running = some n)
    (hs : s < n) (batch : List (WalRecord Blob)) :
    Inv size (d.commit size capacity n s batch) where
  wf := h.wellFormed_commit hrun hs
  writers := by
    intro n' hrun'
    obtain rfl : n = n' := Option.some.inj (hrun.symm.trans hrun')
    exact ⟨(h.writers n hrun).1, h.atTails_commit hrun hs⟩
  after := h.resumes_commit hsize hrun hs h.after
  phase := by
    have hphase := h.phase
    unfold PhaseOk at hphase ⊢
    simp only [Deployment.commit] at hphase ⊢
    split
    · rename_i c hc
      rw [hc] at hphase
      obtain ⟨n', hrun', hkeeps, hres⟩ := hphase
      obtain rfl : n = n' := Option.some.inj (hrun.symm.trans hrun')
      exact ⟨n, hrun, hkeeps.commit hs, h.resumes_commit hsize hrun hs hres⟩
    · rename_i c hc
      rw [hc] at hphase
      obtain ⟨n', hrun', hkeeps, hckpt⟩ := hphase
      obtain rfl : n = n' := Option.some.inj (hrun.symm.trans hrun')
      exact ⟨n, hrun, hkeeps.commit hs, hckpt⟩
    · trivial

end Commit

/-! ### The start of a run -/

section Start

variable {d : Deployment Blob} {n : Nat}

theorem files_openAt_empty {k : GroupKey} (hk : k ∈ currentDirs n) (h : d.dir.files k = []) :
    (d.dir.openAt n).files k = [⟨1, []⟩] := by
  simp [DataDir.openAt, hk, h]

theorem files_openAt {k : GroupKey} (h : k ∈ currentDirs n → d.dir.files k ≠ []) :
    (d.dir.openAt n).files k = d.dir.files k := by
  refine if_neg fun hk => ?_
  exact h hk.1 (isEmpty_iff.mp hk.2)

private theorem files_openAt_cases (d : Deployment Blob) (n : Nat) (k : GroupKey) :
    (d.dir.openAt n).files k = d.dir.files k ∨
      k ∈ currentDirs n ∧ d.dir.files k = [] ∧ (d.dir.openAt n).files k = [⟨1, []⟩] := by
  by_cases hk : k ∈ currentDirs n ∧ d.dir.files k = []
  · exact Or.inr ⟨hk.1, hk.2, files_openAt_empty hk.1 hk.2⟩
  · exact Or.inl (files_openAt fun hmem hnil => hk ⟨hmem, hnil⟩)

private theorem Inv.wellFormed_openAt (h : Inv size d) (n : Nat) :
    (d.dir.openAt n).WellFormed := by
  refine ⟨fun k => ?_, fun s hs => ?_, ?_⟩
  · rcases files_openAt_cases d n k with hk | ⟨-, -, hk⟩
    · rw [hk]
      exact h.wf.ordered k
    · rw [hk]
      exact pairwise_singleton _ _
  · simp only [DataDir.openAt, mem_append, mem_filter]
    by_cases hlisted : s ∈ d.dir.shardDirs
    · exact Or.inl hlisted
    · -- the directory is new, so it is one of the current layout
      rcases files_openAt_cases d n (.shard s) with hk | ⟨hk, -, -⟩
      · exact absurd (h.wf.listed s (hk ▸ hs)) hlisted
      · obtain ⟨s', hs', heq⟩ := mem_currentDirs.mp hk
        unfold shardGroupKey at heq
        split at heq
        · cases heq
        · cases heq
          refine Or.inr ⟨mem_range.mpr hs', ?_⟩
          simp [hlisted]
          omega
  · refine nodup_append.mpr ⟨h.wf.nodup, nodup_range.filter _, fun s hs t ht heq => ?_⟩
    have hnew := (mem_filter.mp ht).2
    subst heq
    simp [hs] at hnew

theorem Inv.start (h : Inv size d) (hn : 0 < n)
    (hfresh : ∀ k ∈ currentDirs n, d.dir.files k = [] →
      WalGroup.Before (d.dir.ckptFor k) (1, 0)) :
    Inv size { d with
      dir := d.dir.openAt n, running := some n
      position := fun s => resumeAt size (d.dir.files (shardGroupKey s n)), phase := .idle } where
  wf := h.wellFormed_openAt n
  writers := by
    intro n' hn'
    cases hn'
    refine ⟨hn, fun s hs => ?_⟩
    rcases files_openAt_cases d n (shardGroupKey s n) with hk | ⟨-, hnil, hk⟩
    · refine ⟨fun hnil => ?_, congrArg (resumeAt size) hk.symm⟩
      rw [hk] at hnil
      have hcur : shardGroupKey s n ∈ currentDirs n := mem_currentDirs.mpr ⟨s, hs, rfl⟩
      rw [files_openAt_empty hcur hnil, hnil] at hk
      cases hk
    · refine ⟨fun h => cons_ne_nil _ _ (hk.symm.trans h), ?_⟩
      have hfirst : resumeAt size ([] : List (WalFile Blob)) = resumeAt size [⟨1, []⟩] := rfl
      exact (congrArg (resumeAt size) hnil).trans
        (hfirst.trans (congrArg (resumeAt size) hk.symm))
  after := by
    intro k
    have hres := h.after k
    rcases files_openAt_cases d n k with hk | ⟨hcur, hnil, hk⟩
    · simp only [hk]
      exact hres
    · rw [hnil] at hres
      simp only [hk, hres.eq_nil]
      exact .fresh (hfresh k hcur hnil)
  phase := trivial

end Start

/-! ### The snapshot -/

section Snapshot

variable {d : Deployment Blob} {n : Nat}

theorem Inv.restart (h : Inv size d) : Inv size { d with phase := .barrier } :=
  { h with phase := trivial }

theorem Inv.marks (hsize : Sized size) (h : Inv size d) (hrun : d.running = some n)
    (mark : WalRecord Blob) {shards : List Nat} (hshards : ∀ s ∈ shards, s < n) :
    Inv size (shards.foldl (fun d s => d.commit size capacity n s [mark]) d) := by
  induction shards generalizing d with
  | nil => exact h
  | cons s shards ih =>
    refine ih (h.commit hsize hrun (hshards s mem_cons_self) [mark]) hrun ?_
    exact fun s' hs' => hshards s' (mem_cons_of_mem s hs')

theorem Inv.readPositions (h : Inv size d) (hrun : d.running = some n) :
    Inv size { d with
      phase := .captured (d.dir.capture size n d.position), since := fun _ => [] } := by
  obtain ⟨hn, hpos⟩ := h.writers n hrun
  have hkey := DataDir.capture_positionForKey h.wf hn hpos
  refine { h with phase := ⟨n, hrun, ⟨fun s hs => ?_, fun _ _ => rfl⟩, fun k => ?_⟩ }
  · rw [DataDir.capture_shardPositions hs, hkey, if_neg (hpos s hs).1]
    exact (hpos s hs).2
  · rw [hkey]
    by_cases hk : d.dir.files k = []
    · rw [hk]
      exact .nil _
    · rw [if_neg hk]
      exact .atEnd (h.wf.ordered k)

theorem Inv.complete (h : Inv size d) {c : Checkpoint} (hphase : d.phase = .captured c) :
    Inv size { d with
      dir := { d.dir with checkpoint := some c }, phase := .written c, after := d.since } := by
  have hok := h.phase
  unfold PhaseOk at hok
  rw [hphase] at hok
  obtain ⟨n, hrun, hkeeps, hres⟩ := hok
  exact
    { wf := ⟨h.wf.ordered, h.wf.listed, h.wf.nodup⟩
      writers := h.writers
      after := hres
      phase := ⟨n, hrun, hkeeps, rfl⟩ }

private theorem absorbed_cases {c : Checkpoint} {fresh : GroupKey → List (WalRecord Blob)}
    (h : Keeps n c fresh) (hn : 0 < n) (k : GroupKey) :
    (∀ f : WalFile Blob, DataDir.absorbed c.shardPositions n k f = true →
      f.idx < ((c.positionForKey k).getD (0, 0)).1) ∨
    (k ∉ currentDirs n ∧ ∀ f : WalFile Blob, DataDir.absorbed c.shardPositions n k f = true) := by
  cases k with
  | flat =>
    refine Or.inl fun f hf => ?_
    obtain ⟨hn1, hidx⟩ := of_decide_eq_true hf
    rwa [h.1 0 hn, shardGroupKey, if_pos hn1] at hidx
  | shard s =>
    by_cases hs : 1 < n ∧ s < n
    · refine Or.inl fun f hf => ?_
      simp only [DataDir.absorbed, if_pos hs] at hf
      have hidx := of_decide_eq_true hf
      rwa [h.1 s hs.2, shardGroupKey, if_neg (by omega)] at hidx
    · refine Or.inr ⟨fun hk => hs ?_, fun f => by simp only [DataDir.absorbed, if_neg hs]⟩
      obtain ⟨s', hs', heq⟩ := mem_currentDirs.mp hk
      unfold shardGroupKey at heq
      split at heq
      · cases heq
      · cases heq
        omega

theorem Inv.dropAbsorbed (h : Inv size d) (hrun : d.running = some n) {c : Checkpoint}
    (hphase : d.phase = .written c) (upto : GroupKey → Nat) :
    Inv size { d with dir := d.dir.dropAbsorbedWalFiles c.shardPositions n upto } := by
  have hok := h.phase
  unfold PhaseOk at hok
  rw [hphase] at hok
  obtain ⟨n', hrun', hkeeps, hckpt⟩ := hok
  obtain rfl : n = n' := Option.some.inj (hrun.symm.trans hrun')
  obtain ⟨hn, hpos⟩ := h.writers n hrun
  have hafter : ∀ k, Resumes size ((c.positionForKey k).getD (0, 0)) (d.dir.files k)
      (d.after k) := by
    intro k
    have := h.after k
    rwa [DataDir.ckptFor, hckpt] at this
  refine
    { wf := ⟨fun k => (h.wf.ordered k).removeFirst _ _, fun s hs => ?_, h.wf.nodup⟩
      writers := fun n' hrun' => ?_
      after := fun k => ?_
      phase := ?_ }
  · refine h.wf.listed s fun hnil => hs ?_
    simp only [DataDir.dropAbsorbedWalFiles, hnil]
    exact sublist_nil.mp (sublist_removeFirst _ _ [])
  · obtain rfl : n = n' := Option.some.inj (hrun.symm.trans hrun')
    refine ⟨hn, fun s hs => ?_⟩
    rcases absorbed_cases hkeeps hn (shardGroupKey s n) with hp | ⟨hk, -⟩
    · obtain ⟨-, hres, hne⟩ := (hafter (shardGroupKey s n)).removeFront hp (upto _)
      exact ⟨hne (hpos s hs).1, (hpos s hs).2.trans hres.symm⟩
    · exact absurd (mem_currentDirs.mpr ⟨s, hs, rfl⟩) hk
  · have hres : Resumes size ((c.positionForKey k).getD (0, 0))
        ((d.dir.dropAbsorbedWalFiles c.shardPositions n upto).files k) (d.after k) := by
      rcases absorbed_cases hkeeps hn k with hp | ⟨hk, hp⟩
      · exact ((hafter k).removeFront hp (upto k)).1
      · have hnil := hafter k
        rw [hkeeps.2 k hk] at hnil ⊢
        exact hnil.removeAll (fun f _ => hp f) (upto k)
    rwa [DataDir.ckptFor, DataDir.dropAbsorbedWalFiles, hckpt]
  · unfold PhaseOk
    rw [hphase]
    exact ⟨n, hrun, hkeeps, hckpt⟩

end Snapshot

/-- **Step lemma.** -/
theorem inv_step (hsize : Sized size) (d : Deployment Blob) (a : DeploymentAction Blob)
    (d' : Deployment Blob) (h : Inv size d) (hC : d.Unrecorded a)
    (hstep : d.step size capacity a = some d') : Inv size d' := by
  cases a with
  | start walShards order =>
    simp only [step] at hstep
    split at hstep
    · cases hstep
    · rw [DataDir.recover_eq h.wf h.covered] at hstep
      cases hstep
      exact h.start (Nat.le_max_right _ _) hC
  | write s batch =>
    obtain ⟨n, hrun, hstep⟩ := Option.bind_eq_some_iff.mp hstep
    split at hstep
    · cases hstep
      exact h.commit hsize hrun ‹_› batch
    · cases hstep
  | barrier lastCheckpointSeq ts =>
    obtain ⟨n, hrun, rfl⟩ := Option.map_eq_some_iff.mp hstep
    exact (h.marks hsize hrun _ fun s hs => mem_range.mp hs).restart
  | readPositions =>
    simp only [step] at hstep
    split at hstep
    · cases hstep
      exact h.readPositions ‹_›
    · cases hstep
  | complete =>
    simp only [step] at hstep
    split at hstep
    · cases hstep
      exact h.complete ‹_›
    · cases hstep
  | dropAbsorbed upto =>
    simp only [step] at hstep
    split at hstep
    · cases hstep
      exact h.dropAbsorbed ‹_› ‹_› upto
    · cases hstep
  | crash =>
    obtain ⟨n, hrun, rfl⟩ := Option.map_eq_some_iff.mp hstep
    exact { h with writers := fun _ hnone => (nomatch hnone), phase := trivial }

/-- **Recovery after any sequence of runs.**  Over one data directory, let runs with arbitrary
shard counts, snapshots and crashes follow each other such that no run starts in a directory that
has no files but a position in the latest snapshot.  Then, wherever the last run crashes, recovery
with any shard count succeeds, and of every group it applies the frames written after the latest
snapshot read its position: each once, and no others. -/
theorem recover_applies_after (hsize : Sized size) {as : List (DeploymentAction Blob)}
    {d : Deployment Blob} (halong : Along (step size capacity) Unrecorded init as)
    (hrun : exec (step size capacity) init as = some d) (n : Nat) {order : List Nat}
    (hnodup : order.Nodup)
    (hmem : ∀ id, id ∈ order ↔
      isSplit ((d.dir.replayGroups n).map (d.dir.groupFrames size)) id = true) :
    ∃ r, d.dir.recover size n order = some r ∧
      ∀ k, ((r.applied.filter fun e => e.1 = k).map Prod.snd).Perm (d.after k) := by
  have h : Inv size d :=
    exec_invariant_along _ (fun d a d' => inv_step hsize d a d') inv_init halong hrun
  refine ⟨_, DataDir.recover_eq h.wf h.covered n order, fun k => ?_⟩
  rw [← (h.after k).frames]
  exact DataDir.applied_perm h.wf hnodup hmem k

/-! ## Runs -/

instance (d : Deployment Blob) (a : DeploymentAction Blob) : Decidable (d.Unrecorded a) :=
  match a with
  | .start walShards _ =>
    decidable_of_iff (∀ k ∈ currentDirs (max walShards 1), (d.dir.files k).isEmpty = true →
        (d.dir.ckptFor k).1 < 1 ∨ (d.dir.ckptFor k).1 = 1 ∧ (d.dir.ckptFor k).2 ≤ 0)
      (forall₂_congr fun _ _ => imp_congr isEmpty_iff Iff.rfl)
  | .write .. | .barrier .. | .readPositions | .complete | .dropAbsorbed .. | .crash => isTrue trivial

/-- A frame of topic `id`. -/
def frameOf (id : Nat) : WalRecord Unit := .append id 1 0 none none ()

/-- Two shards, a snapshot under one shard that is cut off by a crash before its deletions, two
shards again, a second snapshot. -/
def keptRun : List (DeploymentAction Unit) :=
  [.start 2 [], .write 1 [frameOf 1], .crash,
    .start 1 [], .write 0 [frameOf 2], .barrier 0 0, .readPositions, .complete, .crash,
    .start 2 [], .write 1 [frameOf 3], .write 0 [frameOf 4], .barrier 0 0, .readPositions,
    .write 1 [frameOf 5], .complete, .dropAbsorbed fun _ => 9, .crash]

theorem recover_applies_after_keptRun :
    ∃ d, exec (step (fun _ => 10) 25) init keptRun = some d ∧
      ∃ r, d.dir.recover (fun _ => 10) 3 [] = some r ∧
        ∀ k, ((r.applied.filter fun e => e.1 = k).map Prod.snd).Perm (d.after k) := by
  have halong : Along (step (fun _ => 10) 25) Unrecorded init keptRun := by decide
  refine ⟨_, rfl, recover_applies_after (fun _ => Nat.succ_pos 9) halong rfl 3 nodup_nil
    fun id => ?_⟩
  -- only the last frame is behind the second snapshot
  change id ∈ [] ↔ isSplit [[], [], [frameOf 5]] id = true
  simp [isSplit, frameOf, WalRecord.topicId]
  intro _
  split <;> omega

/-- Shard 1 of two is used, a snapshot under one shard records it and deletes its files, and a
later run with two shards writes there again. -/
def reusedRun (batches : List (List (WalRecord Unit))) : List (DeploymentAction Unit) :=
  .start 2 [] :: batches.map (.write 1 ·) ++
    [.crash, .start 1 [], .barrier 0 0, .readPositions, .complete, .dropAbsorbed fun _ => 9, .crash,
      .start 2 [], .write 1 [frameOf 2], .crash]

/-- After a reuse a frame is skipped, and if the directory had a second file recovery fails. -/
theorem recover_skips_reused :
    (∃ d r, exec (step (fun _ => 10) 15) init (reusedRun [[frameOf 1]]) = some d ∧
      d.after (.shard 1) = [frameOf 2] ∧ d.dir.recover (fun _ => 10) 2 [] = some r ∧
      r.applied = []) ∧
    ∃ d, exec (step (fun _ => 10) 15) init (reusedRun [[frameOf 1], [frameOf 1]]) = some d ∧
      d.dir.recover (fun _ => 10) 2 [] = none :=
  ⟨⟨_, _, rfl, rfl, rfl, rfl⟩, _, rfl, rfl⟩

end Deployment

end Topics
