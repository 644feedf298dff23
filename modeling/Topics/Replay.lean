import Topics.Engine
import Topics.Tags

/-!
# Replay of one topic's frames

What replaying the frames of one topic does to that topic, frame by frame and then for whole
logs.
-/

namespace Topics

open TopicIndex List TopicState

variable {Blob : Type} (S : Serde Blob)

/-! ## The invariant of a replayed topic -/

namespace TopicState

/-- The invariant of a topic that only replay has touched. -/
structure Sound (b : TopicState) : Prop where
  persistent : b.config.usesPersistentRecordStore = true
  dense : b.index.tail = b.headSeq + 1
  seqBase : b.seqBase = seqBaseDefault
  tagExact : b.index.TagExact

theorem sound_new {name : String} {topicId : Nat} {config : TopicConfig}
    (hp : config.usesPersistentRecordStore = true) :
    (TopicState.new name topicId config seqBaseDefault).Sound where
  persistent := hp
  dense := tail_new seqBaseDefault
  seqBase := rfl
  tagExact := TopicIndex.TagExact.new seqBaseDefault

theorem append_singleton (b : TopicState) (r : StoredRecord) :
    b.append [r] = { b with
      index := b.index.push r
      headSeq := b.index.tail
      bytesRetained := b.bytesRetained + r.bytes
      liveCount := b.liveCount + 1 } := by
  simp [append, stageAppend, publishStagedNoSeal, StagedAppend.publishHead,
    pushAll]

/-! ### The tag index under retention and deletes -/

theorem tagExact_markAll {ix : TopicIndex} (h : ix.TagExact) (seqs : List Nat) :
    (markAll ix seqs).1.TagExact :=
  markAll_induct (P := TopicIndex.TagExact) seqs h fun _ s hix => hix.markDeleted s

variable {b : TopicState}

section

variable (h : b.index.TagExact)

include h

theorem tagExact_reclaimFront (head : Nat) : (b.reclaimFront head).index.TagExact :=
  h.drainFront (b.reclaimCount head)

theorem tagExact_enforceRetention (now : Int) : (b.enforceRetention now).index.TagExact := by
  unfold enforceRetention
  split
  · exact h
  · apply tagExact_reclaimFront
    rw [commitFloors_index]
    exact h

theorem tagExact_deleteSeqs (seqs : List Nat) : (b.deleteSeqs seqs).index.TagExact :=
  tagExact_reclaimFront (b := b.markSeqs seqs) (tagExact_markAll h seqs) b.headSeq

theorem tagExact_deleteSelected (beforeSeq : Option Nat) (match_ : Option Filter)
    (boundHead : Option Nat) : (b.deleteSelected beforeSeq match_ boundHead).index.TagExact :=
  tagExact_markAll h _

theorem tagExact_applyDelete (beforeSeq : Option Nat) (match_ : Option Filter)
    (boundHead : Option Nat) (now : Int) :
    (b.applyDelete beforeSeq match_ boundHead now).index.TagExact :=
  tagExact_reclaimFront (tagExact_deleteSelected (tagExact_enforceRetention h now) _ _ _) _

end

/-! ### One frame -/

section Arms

variable {S} {b : TopicState} (hp : b.config.usesPersistentRecordStore = true)

include hp

theorem replay_append (id seq ts : Nat) (node tag : Option String) (data : Blob) :
    b.replay S (.append id seq ts node tag data) =
      if seq = b.headSeq + 1 then b.append [replayRecord S ts node tag data] else b :=
  if_pos hp

theorem replay_delete (id : Nat) (beforeSeq : Option Nat) (match_ : Option Filter)
    (seqs : List Nat) (boundHead : Option Nat) (ts : Nat) :
    b.replay S (.delete id beforeSeq match_ seqs boundHead ts) =
      if seqs.isEmpty then b.applyDelete beforeSeq match_ boundHead (asI64 ts)
      else b.deleteSeqs seqs :=
  if_pos hp

theorem replay_lease (id seq : Nat) (event : LeaseEvent) (node : String)
    (leaseId deadline deliveries ts : Nat) :
    b.replay S (.lease id seq event node leaseId deadline deliveries ts) =
      { b with
        queue := b.queue.map fun q =>
          q.applyLeaseEvent event seq node leaseId (asI64 deadline) deliveries } :=
  if_pos hp

theorem replay_headWatermark (id headSeq ts : Nat) :
    b.replay S (.headWatermark id headSeq ts) = b.setReservedHead headSeq :=
  if_pos hp

end Arms

theorem replay_config (b : TopicState) (f : WalRecord Blob) :
    (b.replay S f).config = b.config := by
  by_cases hp : b.config.usesPersistentRecordStore = true
  · cases f with
    | append id seq ts node tag data =>
      rw [replay_append hp]
      split
      · rw [append_singleton]
      · rfl
    | delete id beforeSeq match_ seqs boundHead ts =>
      rw [replay_delete hp]
      split
      · exact (steady_applyDelete b _ _ _ _).config
      · exact (steady_deleteSeqs b seqs).config
    | lease => rw [replay_lease hp]
    | headWatermark => rw [replay_headWatermark hp]; rfl
    | _ => rfl
  · cases f <;> simp [replay, hp]

theorem Sound.of_steady {b b' : TopicState} (h : b.Sound) (hst : Steady b b')
    (hix : b'.index.TagExact) : b'.Sound where
  persistent := by rw [hst.config]; exact h.persistent
  dense := by rw [hst.tail, hst.headSeq]; exact h.dense
  seqBase := hst.seqBase.trans h.seqBase
  tagExact := hix

theorem Sound.append (h : b.Sound) {r : StoredRecord} (hr : r.deleted = false) :
    (b.append [r]).Sound := by
  rw [append_singleton]
  refine ⟨h.persistent, tail_push b.index r, h.seqBase, ?_⟩
  apply h.tagExact.push
  intro hd
  rw [hr] at hd
  cases hd

theorem Sound.replay (h : b.Sound) (f : WalRecord Blob) :
    (b.replay S f).Sound := by
  cases f with
  | append id seq ts node tag data =>
    rw [replay_append h.persistent]
    split
    · exact h.append rfl
    · exact h
  | delete id beforeSeq match_ seqs boundHead ts =>
    rw [replay_delete h.persistent]
    split
    · exact h.of_steady (steady_applyDelete b _ _ _ _) (tagExact_applyDelete h.tagExact _ _ _ _)
    · exact h.of_steady (steady_deleteSeqs b seqs) (tagExact_deleteSeqs h.tagExact seqs)
  | lease id seq event node leaseId deadline deliveries ts =>
    rw [replay_lease h.persistent]
    exact { h with }
  | headWatermark id headSeq ts =>
    rw [replay_headWatermark h.persistent]
    exact { h with }
  | evictWatermark => exact { h with }
  | topicConfig | routerCreate | routerDelete | checkpointMark => exact h

def replayAll (b : TopicState) (frames : List (WalRecord Blob)) : TopicState :=
  frames.foldl (TopicState.replay S) b

theorem replayAll_append (b : TopicState) (l l' : List (WalRecord Blob)) :
    b.replayAll S (l ++ l') = (b.replayAll S l).replayAll S l' :=
  foldl_append

theorem Sound.replayAll (h : b.Sound) (frames : List (WalRecord Blob)) :
    (b.replayAll S frames).Sound := by
  induction frames generalizing b with
  | nil => exact h
  | cons f frames ih => exact ih (h.replay S f)

end TopicState

/-! ## Head and reservation -/

/-- The seq of an `Append` frame. -/
def WalRecord.appendSeq? : WalRecord Blob → Option Nat
  | .append _ seq _ _ _ _ => some seq
  | _ => none

/-- The seqs of the `Append` frames of a log, in log order. -/
def appendSeqs (frames : List (WalRecord Blob)) : List Nat :=
  frames.filterMap WalRecord.appendSeq?

/-- The reservation a frame carries; `0` unless it is a `HeadWatermark`. -/
def WalRecord.headMark : WalRecord Blob → Nat
  | .headWatermark _ headSeq _ => headSeq
  | _ => 0

def headMarks (frames : List (WalRecord Blob)) : Nat :=
  (frames.map WalRecord.headMark).foldr max 0

theorem headMarks_cons (f : WalRecord Blob) (frames : List (WalRecord Blob)) :
    headMarks (f :: frames) = max f.headMark (headMarks frames) := rfl

theorem headMark_le_headMarks {f : WalRecord Blob} {frames : List (WalRecord Blob)}
    (h : f ∈ frames) : f.headMark ≤ headMarks frames := by
  induction frames with
  | nil => cases h
  | cons g frames ih =>
    rw [headMarks_cons]
    rcases mem_cons.mp h with rfl | hmem
    · exact le_max_left _ _
    · exact (ih hmem).trans (le_max_right _ _)

theorem headMarks_le {frames : List (WalRecord Blob)} {n : Nat}
    (h : ∀ f ∈ frames, f.headMark ≤ n) : headMarks frames ≤ n := by
  induction frames with
  | nil => exact Nat.zero_le n
  | cons f frames ih =>
    rw [headMarks_cons]
    exact max_le (h f mem_cons_self) (ih fun g hg => h g (mem_cons_of_mem f hg))

namespace TopicState

variable {b : TopicState}

theorem replay_headSeq (h : b.Sound) (f : WalRecord Blob) :
    (b.replay S f).headSeq =
      if f.appendSeq? = some (b.headSeq + 1) then b.headSeq + 1 else b.headSeq := by
  cases f with
  | append id seq ts node tag data =>
    rw [replay_append h.persistent]
    simp only [WalRecord.appendSeq?, Option.some.injEq]
    split
    · rw [append_singleton]
      exact h.dense
    · rfl
  | delete id beforeSeq match_ seqs boundHead ts =>
    rw [replay_delete h.persistent]
    split
    · exact (steady_applyDelete b _ _ _ _).headSeq
    · exact (steady_deleteSeqs b seqs).headSeq
  | lease => rw [replay_lease h.persistent]; rfl
  | headWatermark => rw [replay_headWatermark h.persistent]; rfl
  | evictWatermark | topicConfig | routerCreate | routerDelete | checkpointMark => rfl

theorem replay_reservedHead (h : b.Sound) (f : WalRecord Blob) :
    (b.replay S f).reservedHead = max b.reservedHead f.headMark := by
  cases f with
  | append id seq ts node tag data =>
    rw [replay_append h.persistent]
    refine Eq.trans ?_ (Nat.max_zero _).symm
    split
    · rw [append_singleton]
    · rfl
  | delete id beforeSeq match_ seqs boundHead ts =>
    rw [replay_delete h.persistent]
    refine Eq.trans ?_ (Nat.max_zero _).symm
    split
    · exact (steady_applyDelete b _ _ _ _).reservedHead
    · exact (steady_deleteSeqs b seqs).reservedHead
  | lease => rw [replay_lease h.persistent]; exact (Nat.max_zero _).symm
  | headWatermark => rw [replay_headWatermark h.persistent]; rfl
  | evictWatermark | topicConfig | routerCreate | routerDelete | checkpointMark =>
    exact (Nat.max_zero _).symm

theorem reservedHead_replayAll (h : b.Sound) (frames : List (WalRecord Blob)) :
    (b.replayAll S frames).reservedHead = max b.reservedHead (headMarks frames) := by
  induction frames generalizing b with
  | nil => exact (Nat.max_zero _).symm
  | cons f frames ih =>
    have hrec := ih (h.replay S f)
    rw [replay_reservedHead S h f, Nat.max_assoc] at hrec
    exact hrec

theorem headSeq_replayAll_of_range (h : b.Sound) {n : Nat} {frames : List (WalRecord Blob)}
    (hseqs : appendSeqs frames = List.range' (b.headSeq + 1) n) :
    (b.replayAll S frames).headSeq = b.headSeq + n := by
  induction frames generalizing b n with
  | nil =>
    cases n with
    | zero => rfl
    | succ n => simp [appendSeqs, range'_succ] at hseqs
  | cons f frames ih =>
    have hhead := replay_headSeq S h f
    cases hf : f.appendSeq? with
    | none =>
      rw [hf, if_neg (by simp)] at hhead
      have hrest : appendSeqs frames = range' ((b.replay S f).headSeq + 1) n := by
        rw [hhead, ← hseqs]
        simp [appendSeqs, hf]
      exact (ih (h.replay S f) hrest).trans (by rw [hhead])
    | some seq =>
      have hcons : seq :: appendSeqs frames = range' (b.headSeq + 1) n := by
        rw [← hseqs]
        simp [appendSeqs, hf]
      cases n with
      | zero => simp at hcons
      | succ n =>
        rw [range'_succ, cons.injEq] at hcons
        rw [hf, if_pos (by rw [hcons.1])] at hhead
        have hrest : appendSeqs frames = range' ((b.replay S f).headSeq + 1) n := by
          rw [hhead]
          exact hcons.2
        have := ih (h.replay S f) hrest
        rw [hhead] at this
        exact this.trans (by omega)

end TopicState

/-! ## What stays live -/

def WalRecord.isDelete : WalRecord Blob → Bool
  | .delete .. => true
  | _ => false

def Filter.selects (f : Filter) (tag : String) : Bool :=
  match f.op with
  | .eq => tag == f.value
  | .glob => startsWith tag f.value

/-- Whether a `Delete` frame selects the record at `seq` that carries `tag`. -/
def WalRecord.Selects (seq : Nat) (tag : Option String) : WalRecord Blob → Prop
  | .delete _ beforeSeq match_ seqs boundHead _ =>
    if seqs.isEmpty then
      (∀ s, beforeSeq = some s → seq < s) ∧ (∀ s, boundHead = some s → seq < s) ∧
        ∀ f, match_ = some f → ∃ t, tag = some t ∧ f.selects t = true
    else seq ∈ seqs
  | _ => False

/-- A `Delete` frame that removes the record at `seq`: it selects the record, or its retention
pass ended with floors `top` at or above the record. -/
def WalRecord.Removes (seq : Nat) (tag : Option String) (top : Nat) (f : WalRecord Blob) : Prop :=
  f.isDelete = true ∧ (seq ≤ top ∨ f.Selects seq tag)

theorem TopicIndex.of_mem_matchingLiveSeqs {ix : TopicIndex} {f : Filter} {bound s : Nat}
    (h : s ∈ ix.matchingLiveSeqs f bound) :
    s < bound ∧ ∃ t, f.selects t = true ∧ s ∈ ix.tagIndex.getD t [] := by
  unfold matchingLiveSeqs at h
  simp only [mem_insertionSort, mem_filter, decide_eq_true_eq, mem_flatMap,
    id_eq] at h
  obtain ⟨⟨l, hl, hs⟩, hlt⟩ := h
  refine ⟨hlt, ?_⟩
  cases hop : f.op with
  | eq =>
    rw [hop] at hl
    simp only [mem_singleton] at hl
    exact ⟨f.value, by simp [Filter.selects, hop], hl ▸ hs⟩
  | glob =>
    rw [hop] at hl
    simp only [mem_map] at hl
    obtain ⟨⟨t, l'⟩, hmem, hl'⟩ := hl
    simp only at hl'
    subst hl'
    have hsel := mem_takeWhile_imp hmem
    have htree := (dropWhile_suffix _).subset (( takeWhile_prefix _).subset hmem)
    refine ⟨t, by simpa [Filter.selects, hop] using hsel, ?_⟩
    have hget := Std.TreeMap.mem_toList_iff_getElem?_eq_some.mp htree
    rw [Std.TreeMap.getD_eq_getD_getElem?, hget]
    exact hs

namespace TopicState

variable {b : TopicState} {now : Int} {s : Nat} {r : StoredRecord}

theorem live_of_live_enforceRetention (h : (b.enforceRetention now).index.live s = some r) :
    b.index.live s = some r := by
  unfold enforceRetention at h
  split at h
  · exact h
  · rw [live_reclaimFront, commitFloors_index] at h
    split at h
    · cases h
    · exact h

theorem selects_of_mem_deleteVictims (h : b.index.TagExact) (hlive : b.index.live s = some r)
    {beforeSeq : Option Nat} {match_ : Option Filter} {boundHead : Option Nat} {pit : Nat}
    (hpit : ∀ p, boundHead = some p → pit = p)
    (hmem : s ∈ (b.enforceRetention now).deleteVictims (deleteBound beforeSeq pit) match_)
    (id ts : Nat) :
    (WalRecord.delete id beforeSeq match_ [] boundHead ts : WalRecord Blob).Selects s r.tag := by
  have hbound : s < deleteBound beforeSeq pit ∧
      ∀ f, match_ = some f → ∃ t, r.tag = some t ∧ f.selects t = true := by
    cases match_ with
    | none =>
      simp only [deleteVictims, liveSeqsBelow, mem_filter, mem_range'_1] at hmem
      exact ⟨by omega, nofun⟩
    | some f =>
      obtain ⟨hlt, t, hsel, hpost⟩ := of_mem_matchingLiveSeqs hmem
      refine ⟨hlt, fun f' hf' => ?_⟩
      cases hf'
      -- the posting leads back to the live record itself
      obtain ⟨r', hr', htag⟩ := ((tagExact_enforceRetention h now).mem_iff t s).mp hpost
      have heq := live_of_live_enforceRetention hr'
      rw [hlive, Option.some.injEq] at heq
      exact ⟨t, by rw [heq]; exact htag, hsel⟩
  refine ⟨fun p hp => ?_, fun p hp => ?_, hbound.2⟩
  · have := hbound.1
    rw [hp] at this
    exact this.trans_le (min_le_left _ _)
  · have := hbound.1
    rw [hpit p hp] at this
    cases beforeSeq with
    | none => exact this
    | some q => exact this.trans_le (min_le_right _ _)

theorem floors_le_replay (h : b.Sound) (f : WalRecord Blob) :
    b.floors.Le (b.replay S f).floors := by
  cases f with
  | append id seq ts node tag data =>
    rw [replay_append h.persistent]
    split
    · rw [append_singleton]
      exact Floors.Le.refl _
    · exact Floors.Le.refl _
  | delete id beforeSeq match_ seqs boundHead ts =>
    rw [replay_delete h.persistent]
    split
    · exact floors_le_applyDelete b _ _ _ _
    · exact Floors.Le.refl _
  | evictWatermark => exact ⟨le_max_left _ _, le_max_left _ _, le_rfl, le_rfl⟩
  | lease => rw [replay_lease h.persistent]; exact Floors.Le.refl _
  | headWatermark => rw [replay_headWatermark h.persistent]; exact Floors.Le.refl _
  | topicConfig | routerCreate | routerDelete | checkpointMark => exact Floors.Le.refl _

theorem floors_le_replayAll (h : b.Sound) (frames : List (WalRecord Blob)) :
    b.floors.Le (b.replayAll S frames).floors := by
  induction frames generalizing b with
  | nil => exact Floors.Le.refl _
  | cons f frames ih => exact (floors_le_replay S h f).trans (ih (h.replay S f))

/-- **One frame**: a live record stays live, unless the frame is a delete that removes it. -/
theorem live_replay (h : b.Sound) (hlive : b.index.live s = some r) (f : WalRecord Blob) :
    (b.replay S f).index.live s = some r ∨ f.Removes s r.tag (b.replay S f).floors.top := by
  cases f with
  | append id seq ts node tag data =>
    left
    rw [replay_append h.persistent]
    split
    · rw [append_singleton]
      have hlt := lt_tail_of_get (live_eq_some.mp hlive).1
      rw [live_push, if_neg (by omega), hlive]
    · exact hlive
  | delete id beforeSeq match_ seqs boundHead ts =>
    rw [replay_delete h.persistent]
    by_cases hseqs : seqs.isEmpty = true
    · rw [if_pos hseqs]
      by_cases htop : s ≤ (b.applyDelete beforeSeq match_ boundHead (asI64 ts)).floors.top
      · exact Or.inr ⟨rfl, Or.inl htop⟩
      · have hbase : b.seqBase ≤ s := by
          rw [h.seqBase, seqBaseDefault]
          omega
        by_cases hmem : s ∈ (b.enforceRetention (asI64 ts)).deleteVictims
            (deleteBound beforeSeq (boundHead.getD (b.headSeq + 1))) match_
        · have hnil : seqs = [] := isEmpty_iff.mp hseqs
          subst hnil
          refine Or.inr ⟨rfl, Or.inr
            (selects_of_mem_deleteVictims h.tagExact hlive ?_ hmem id ts)⟩
          intro p hp
          rw [hp]
          rfl
        · left
          rw [live_applyDelete_of_top_lt hbase (by omega) hmem, hlive]
    · rw [if_neg hseqs]
      by_cases htop : s ≤ b.floors.top
      · exact Or.inr ⟨rfl, Or.inl htop⟩
      · by_cases hmem : s ∈ seqs
        · refine Or.inr ⟨rfl, Or.inr ?_⟩
          simp only [WalRecord.Selects, hseqs, Bool.false_eq_true, if_false]
          exact hmem
        · left
          have hbase : b.seqBase ≤ s := by
            rw [h.seqBase, seqBaseDefault]
            omega
          rw [live_deleteSeqs_of_top_lt hbase (by omega) hmem, hlive]
  | lease => left; rw [replay_lease h.persistent]; exact hlive
  | headWatermark => left; rw [replay_headWatermark h.persistent]; exact hlive
  | evictWatermark | topicConfig | routerCreate | routerDelete | checkpointMark =>
    exact Or.inl hlive

/-- **A whole log**: a record live before the replay is live after it, unless a `Delete` of
the log removed it. -/
theorem live_replayAll (h : b.Sound) (hlive : b.index.live s = some r)
    (frames : List (WalRecord Blob)) :
    (b.replayAll S frames).index.live s = some r ∨
      ∃ f ∈ frames, f.Removes s r.tag (b.replayAll S frames).floors.top := by
  induction frames generalizing b with
  | nil => exact Or.inl hlive
  | cons f frames ih =>
    rcases live_replay S h hlive f with hl | ⟨hdel, hrem⟩
    · rcases ih (h.replay S f) hl with hl' | ⟨g, hg, hrem⟩
      · exact Or.inl hl'
      · exact Or.inr ⟨g, mem_cons_of_mem f hg, hrem⟩
    · -- the floors never fall again
      refine Or.inr ⟨f, mem_cons_self, hdel, hrem.imp_left fun htop => ?_⟩
      exact htop.trans (floors_le_replayAll S (h.replay S f) frames).top

theorem live_replay_append (h : b.Sound) (id ts : Nat) (node tag : Option String) (data : Blob) :
    (b.replay S (.append id (b.headSeq + 1) ts node tag data)).index.live (b.headSeq + 1) =
      some (replayRecord S ts node tag data) := by
  rw [replay_append h.persistent, if_pos rfl, append_singleton, live_push, h.dense,
    if_pos rfl]
  rfl

/-- **Every `Append` of a log without gaps comes back at its seq**, unless a `Delete` of the
same log removed it.  The induction is along the log; the head says which seq is next. -/
theorem live_of_mem_replayAll (h : b.Sound) {n : Nat} {frames : List (WalRecord Blob)}
    (hseqs : appendSeqs frames = List.range' (b.headSeq + 1) n) {id s ts : Nat}
    {node tag : Option String} {data : Blob}
    (hmem : WalRecord.append id s ts node tag data ∈ frames) :
    (b.replayAll S frames).index.live s = some (replayRecord S ts node tag data) ∨
      ∃ f ∈ frames, f.Removes s tag (b.replayAll S frames).floors.top := by
  induction frames generalizing b n with
  | nil => cases hmem
  | cons f frames ih =>
    have hhead := replay_headSeq S h f
    have lift : ((b.replay S f).replayAll S frames).index.live s
          = some (replayRecord S ts node tag data) ∨
        (∃ g ∈ frames, g.Removes s tag ((b.replay S f).replayAll S frames).floors.top) →
        (b.replayAll S (f :: frames)).index.live s = some (replayRecord S ts node tag data) ∨
          ∃ g ∈ f :: frames, g.Removes s tag (b.replayAll S (f :: frames)).floors.top := by
      rintro (hl | ⟨g, hg, hrem⟩)
      · exact Or.inl hl
      · exact Or.inr ⟨g, mem_cons_of_mem f hg, hrem⟩
    cases hf : f.appendSeq? with
    | none =>
      have hrest : appendSeqs frames = range' ((b.replay S f).headSeq + 1) n := by
        rw [hhead, hf, if_neg (by simp), ← hseqs]
        simp [appendSeqs, hf]
      rcases mem_cons.mp hmem with rfl | hmem'
      · cases hf
      · exact lift (ih (h.replay S f) hrest hmem')
    | some seq =>
      have hcons : seq :: appendSeqs frames = range' (b.headSeq + 1) n := by
        rw [← hseqs]
        simp [appendSeqs, hf]
      cases n with
      | zero => simp at hcons
      | succ n =>
        rw [range'_succ, cons.injEq] at hcons
        have hrest : appendSeqs frames = range' ((b.replay S f).headSeq + 1) n := by
          rw [hhead, hf, if_pos (by rw [hcons.1])]
          exact hcons.2
        rcases mem_cons.mp hmem with rfl | hmem'
        · -- the frame itself: it is admitted at `head + 1`, the rest keeps it
          have hs : s = b.headSeq + 1 := by
            cases hf
            exact hcons.1
          subst hs
          exact lift (live_replayAll S (h.replay S _)
            (live_replay_append S h id ts node tag data) frames)
        · exact lift (ih (h.replay S f) hrest hmem')

/-! ## Reconciling the head -/

theorem applyHeadWatermark_eq (b : TopicState) :
    b.applyHeadWatermark =
      if b.headSeq < b.reservedHead then
        { b with
          index := b.index.pushAll
            (replicate (b.reservedHead + 1 - b.index.tail) deletedHole)
          headSeq := b.reservedHead }
      else b := by
  unfold applyHeadWatermark restoreHeadWatermark setReservedHead
  by_cases h : b.headSeq < b.reservedHead
  · simp [h, Nat.not_le.mpr h]
  · simp [h]

theorem applyHeadWatermark_headSeq (b : TopicState) :
    b.applyHeadWatermark.headSeq = max b.headSeq b.reservedHead := by
  rw [applyHeadWatermark_eq]
  split
  · rename_i h
    exact (max_eq_right (le_of_lt h)).symm
  · rename_i h
    exact (max_eq_left (not_lt.mp h)).symm

@[simp] theorem applyHeadWatermark_reservedHead (b : TopicState) :
    b.applyHeadWatermark.reservedHead = b.reservedHead := by
  rw [applyHeadWatermark_eq]
  split <;> rfl

@[simp] theorem applyHeadWatermark_floors (b : TopicState) :
    b.applyHeadWatermark.floors = b.floors := by
  rw [applyHeadWatermark_eq]
  split <;> rfl

@[simp] theorem applyHeadWatermark_topicId (b : TopicState) :
    b.applyHeadWatermark.topicId = b.topicId := by
  rw [applyHeadWatermark_eq]
  split <;> rfl

theorem live_applyHeadWatermark (b : TopicState) (s : Nat) :
    b.applyHeadWatermark.index.live s = b.index.live s := by
  rw [applyHeadWatermark_eq]
  split
  · exact live_pushAll_holes b.index _ s
  · rfl

theorem tail_applyHeadWatermark (h : b.index.tail = b.headSeq + 1) :
    b.applyHeadWatermark.index.tail = b.applyHeadWatermark.headSeq + 1 := by
  rw [applyHeadWatermark_eq]
  split
  · simp only [tail_pushAll, length_replicate]
    omega
  · exact h

end TopicState

/-! ## The engine's view -/

/-- Whether `replay_frame` routes the frame to the topic with this id. -/
def WalRecord.addresses (id : Nat) : WalRecord Blob → Bool
  | .append i .. => i == id
  | .delete i .. => i == id
  | .evictWatermark i .. => i == id
  | .lease i .. => i == id
  | .headWatermark i .. => i == id
  | _ => false

namespace Engine

variable {b : TopicState} {id : Nat} {frames : List (WalRecord Blob)}

theorem modifyById_singleton (h : b.topicId = id) (g : RouterGraph) (n : Nat)
    (f : TopicState → TopicState) :
    (Engine.mk [b] g n).modifyById id f = ⟨[f b], g, n⟩ := by
  simp [modifyById, modifyFirst, h]

theorem replayFrame_singleton (h : b.topicId = id) (g : RouterGraph) (n : Nat) (now : Int)
    {f : WalRecord Blob} (hf : f.addresses id = true) :
    replayFrame S now ⟨[b], g, n⟩ f = ⟨[b.replay S f], g, n⟩ := by
  cases f with
  | append i =>
    have hi : b.topicId = i := by rw [h]; exact (beq_iff_eq.mp hf).symm
    have hsome : ((Engine.mk [b] g n).getTopicById i).isSome := by simp [getTopicById, hi]
    simp only [replayFrame, hsome, if_true]
    exact modifyById_singleton hi g n _
  | delete | lease => exact modifyById_singleton (by rw [h]; exact (beq_iff_eq.mp hf).symm) g n _
  | evictWatermark | headWatermark =>
    exact modifyById_singleton (by rw [h]; exact (beq_iff_eq.mp hf).symm) g n _
  | topicConfig | routerCreate | routerDelete | checkpointMark => cases hf

theorem replay_topicId (b : TopicState) (f : WalRecord Blob) :
    (b.replay S f).topicId = b.topicId := by
  cases f with
  | append =>
    simp only [replay]
    split
    · split
      · rw [append_singleton]
      · rfl
    · rfl
  | delete =>
    simp only [replay]
    split
    · split
      · exact (steady_applyDelete b _ _ _ _).topicId
      · exact (steady_deleteSeqs b _).topicId
    · rfl
  | lease | headWatermark => simp only [replay]; split <;> rfl
  | evictWatermark | topicConfig | routerCreate | routerDelete | checkpointMark => rfl

theorem foldl_replayFrame_singleton (h : b.topicId = id) (g : RouterGraph) (n : Nat) (now : Int)
    (hf : ∀ f ∈ frames, f.addresses id = true) :
    frames.foldl (replayFrame S now) ⟨[b], g, n⟩ = ⟨[b.replayAll S frames], g, n⟩ := by
  induction frames generalizing b with
  | nil => rfl
  | cons f frames ih =>
    rw [foldl_cons, replayFrame_singleton S h g n now (hf f mem_cons_self)]
    exact ih ((replay_topicId S b f).trans h) fun f' hf' => hf f' (mem_cons_of_mem f hf')

theorem foldl_replayFrame_create (hS : S.RoundTrips) (now : Int) (name : String) (id : Nat)
    (config : TopicConfig) (ts : Nat) (hf : ∀ f ∈ frames, f.addresses id = true) :
    (WalRecord.topicConfig id ⟨name, S.configToVec config⟩ false ts :: frames).foldl
        (replayFrame S now) empty =
      ⟨[(TopicState.new name id config seqBaseDefault).replayAll S frames],
        RouterGraph.empty, max 1 (id + 1)⟩ := by
  have hcreate : replayFrame S now empty (.topicConfig id ⟨name, S.configToVec config⟩ false ts)
      = ⟨[new name id config seqBaseDefault], RouterGraph.empty, max 1 (id + 1)⟩ := by
    simp [replayFrame, applyPutTopic, getTopic, empty, hS.config]
  rw [foldl_cons, hcreate, foldl_replayFrame_singleton S rfl _ _ now hf]

theorem replayAll_topicId (b : TopicState) (frames : List (WalRecord Blob)) :
    (b.replayAll S frames).topicId = b.topicId := by
  induction frames generalizing b with
  | nil => rfl
  | cons f frames ih => exact (ih (b.replay S f)).trans (replay_topicId S b f)

/-- **Recovery of a single topic**: from its create frame followed by its own frames, the
engine rebuilds exactly the topic's own replay with its head reconciled. -/
theorem recover_singleTopic (hS : S.RoundTrips) (now : Int) (name : String) (id : Nat)
    (config : TopicConfig) (ts : Nat) (hf : ∀ f ∈ frames, f.addresses id = true) :
    (recover S now
        (.topicConfig id ⟨name, S.configToVec config⟩ false ts :: frames)).getTopicById id =
      some ((TopicState.new name id config seqBaseDefault).replayAll S
        frames).applyHeadWatermark := by
  have hid : (((new name id config seqBaseDefault).replayAll S
      frames).applyHeadWatermark).topicId = id := by
    rw [applyHeadWatermark_topicId]
    exact replayAll_topicId S _ frames
  unfold recover
  rw [foldl_replayFrame_create S hS now name id config ts hf]
  simp only [applyHeadWatermarks, getTopicById, map_cons, map_nil]
  rw [find?_cons_of_pos]
  exact decide_eq_true hid

end Engine

end Topics
