import Topics.NameReplay
import Topics.SnapshotTopic

/-!
# Removed records stay removed

Retention, deletes, snapshots and the replay of any frame but an `Append` only ever remove
records.  Seen from one id, `replay_frame` either leaves the topic alone, applies the frame to
it, or, if an `Append` to an unknown id has to invent a topic of the same name, resets its config.
-/

namespace Topics

open TopicState List WalRecord

variable {Blob : Type} {S : Serde Blob}

/-! ## One topic -/

namespace TopicState

/-- Every live record of `b'` is a live record of `b`. -/
def Shrinks (b b' : TopicState) : Prop :=
  ∀ s r, b'.index.live s = some r → b.index.live s = some r

theorem Shrinks.refl (b : TopicState) : b.Shrinks b := fun _ _ hs => hs

theorem Shrinks.trans {b₁ b₂ b₃ : TopicState} (h : b₁.Shrinks b₂) (h' : b₂.Shrinks b₃) :
    b₁.Shrinks b₃ := fun s r hs => h s r (h' s r hs)

variable {b b' : TopicState} {s : Nat}

theorem Shrinks.of_index (h : b'.index = b.index) : b.Shrinks b' :=
  fun s r hs => by rw [← h]; exact hs

theorem Shrinks.dead (h : b.Shrinks b') (hs : b.index.live s = none) : b'.index.live s = none := by
  cases hs' : b'.index.live s with
  | none => rfl
  | some r =>
    rw [h s r hs'] at hs
    cases hs

theorem Shrinks.of_live_ite {P : Nat → Prop} [DecidablePred P]
    (h : ∀ s, b'.index.live s = if P s then none else b.index.live s) : b.Shrinks b' := by
  intro s r hs
  rw [h] at hs
  split at hs
  · cases hs
  · exact hs

theorem shrinks_reclaimFront (b : TopicState) (head : Nat) : b.Shrinks (b.reclaimFront head) :=
  .of_live_ite (live_reclaimFront b head)

theorem shrinks_commitFloors (b : TopicState) (p : RetentionAdvance) :
    b.Shrinks (b.commitFloors p) :=
  .of_index (commitFloors_index b p)

theorem shrinks_enforceRetention (b : TopicState) (now : Int) :
    b.Shrinks (b.enforceRetention now) :=
  fun _ _ hs => live_of_live_enforceRetention hs

theorem shrinks_markSeqs (b : TopicState) (seqs : List Nat) : b.Shrinks (b.markSeqs seqs) :=
  .of_live_ite (live_markAll b.index seqs)

theorem shrinks_deleteSeqs (b : TopicState) (seqs : List Nat) : b.Shrinks (b.deleteSeqs seqs) :=
  (shrinks_markSeqs b seqs).trans (shrinks_reclaimFront _ _)

theorem live_deleteSeqs_of_mem (b : TopicState) {seqs : List Nat} (h : s ∈ seqs) :
    (b.deleteSeqs seqs).index.live s = none := by
  refine (shrinks_reclaimFront (b.markSeqs seqs) b.headSeq).dead ?_
  change (markAll b.index seqs).1.live s = none
  rw [live_markAll, if_pos h]

theorem shrinks_deleteSelected (b : TopicState) (beforeSeq : Option Nat) (match_ : Option Filter)
    (boundHead : Option Nat) : b.Shrinks (b.deleteSelected beforeSeq match_ boundHead) :=
  .of_live_ite (live_deleteSelected b beforeSeq match_ boundHead)

theorem shrinks_applyDelete (b : TopicState) (beforeSeq : Option Nat) (match_ : Option Filter)
    (boundHead : Option Nat) (now : Int) :
    b.Shrinks (b.applyDelete beforeSeq match_ boundHead now) :=
  (shrinks_enforceRetention b now).trans
    ((shrinks_deleteSelected _ beforeSeq match_ boundHead).trans (shrinks_reclaimFront _ _))

theorem shrinks_applyHeadWatermark (b : TopicState) : b.Shrinks b.applyHeadWatermark :=
  fun s _ hs => (live_applyHeadWatermark b s) ▸ hs

theorem dead_snapshotTopic (hS : S.RoundTrips) (resolve : Nat → Value × Option Value)
    (hp : b.config.usesPersistentRecordStore = true) (hs : b.index.live s = none) :
    (snapshotTopic S resolve b).index.live s = none := by
  rw [live_snapshotTopic resolve hS hp, hs]
  simp

end TopicState

/-! ## One frame -/

/-- Whether the frame is an `Append` to the id. -/
def WalRecord.appendsTo (id : Nat) : WalRecord Blob → Bool
  | .append i .. => i == id
  | _ => false

/-- Whether the frame sets the config of the name, or removes it. -/
def WalRecord.configures (name : String) : WalRecord Blob → Bool
  | .topicConfig _ op _ _ => op.name == name
  | _ => false

/-- Whether the frame names the seq in an explicit delete. -/
def WalRecord.deletesSeq (id seq : Nat) : WalRecord Blob → Bool
  | .delete i _ _ seqs _ _ => i == id && seqs.contains seq
  | _ => false

theorem TopicState.shrinks_replay (b : TopicState) {f : WalRecord Blob}
    (hf : f.appendsTo b.topicId = false) (haddr : f.addresses b.topicId = true) :
    b.Shrinks (b.replay S f) := by
  cases f with
  | append i =>
    have : (i == b.topicId) = true := haddr
    rw [appendsTo, this] at hf
    cases hf
  | delete =>
    simp only [replay]
    split
    · split
      · exact b.shrinks_applyDelete _ _ _ _
      · exact b.shrinks_deleteSeqs _
    · exact .refl b
  | lease | headWatermark =>
    simp only [replay]
    split
    · exact .of_index rfl
    · exact .refl b
  | evictWatermark => exact .of_index rfl
  | topicConfig | routerCreate | routerDelete | checkpointMark => exact .refl b

theorem TopicState.live_replay_of_deletesSeq {b : TopicState}
    (hp : b.config.usesPersistentRecordStore = true) {f : WalRecord Blob} {id s : Nat}
    (hf : f.deletesSeq id s = true) : (b.replay S f).index.live s = none := by
  cases f with
  | delete i beforeSeq match_ seqs boundHead ts =>
    have hs : s ∈ seqs := by
      simp only [deletesSeq, Bool.and_eq_true, contains_iff_mem] at hf
      exact hf.2
    have hne : seqs.isEmpty = false := by
      cases seqs with
      | nil => cases hs
      | cons => rfl
    simp only [replay, hp, if_true, hne, Bool.false_eq_true, if_false]
    exact b.live_deleteSeqs_of_mem hs
  | _ => cases hf

/-! ## One frame, seen from an id -/

theorem find?_modifyFirst_or {α : Type} {p q : α → Bool} {f : α → α} (hq : ∀ a, q (f a) = q a)
    {l : List α} {b : α} (h : l.find? q = some b) :
    (modifyFirst p f l).find? q = some b ∨
      p b = true ∧ (modifyFirst p f l).find? q = some (f b) := by
  induction l with
  | nil => cases h
  | cons a l ih =>
    rw [find?_cons] at h
    cases hpa : p a <;> cases hqa : q a <;> rw [hqa] at h
    · simpa [modifyFirst, hpa, hqa] using ih h
    · exact .inl (by simpa [modifyFirst, hpa, hqa] using h)
    · exact .inl (by simpa [modifyFirst, hpa, hq, hqa] using h)
    · cases h
      exact .inr ⟨hpa, by simp [modifyFirst, hpa, hq, hqa]⟩

theorem find?_filter_of_pos {α : Type} {p q : α → Bool} {l : List α} {b : α}
    (h : l.find? q = some b) (hp : p b = true) : (l.filter p).find? q = some b := by
  rw [find?_filter]
  obtain ⟨hq, as, bs, rfl, has⟩ := find?_eq_some_iff_append.mp h
  refine find?_eq_some_iff_append.mpr ⟨by simp [hp, hq], as, bs, rfl, fun a ha => ?_⟩
  have hno : q a = false := by simpa using has a ha
  simp [hno]

namespace Engine

/-- What a frame that does not configure the topic does to it. -/
inductive ReplayStep (S : Serde Blob) (now : Int) (id : Nat) (f : WalRecord Blob)
    (b : TopicState) : TopicState → Prop where
  | skip (hf : f.addresses id = false) : ReplayStep S now id f b b
  | own (hf : f.addresses id = true) : ReplayStep S now id f b (b.replay S f)
  /-- An `Append` to an unknown id takes the topic for the one it has to invent. -/
  | reset (hf : f.addresses id = false) :
      ReplayStep S now id f b ({ b with config := {} }.enforceRetention now)

variable {E : Engine} {id s : Nat} {b b' : TopicState} {f : WalRecord Blob} {now : Int}
  {fs : List (WalRecord Blob)}

theorem getTopicById_modifyById (hb : E.getTopicById id = some b) {f : TopicState → TopicState}
    (hid : ∀ c, (f c).topicId = c.topicId) : (E.modifyById id f).getTopicById id = some (f b) := by
  refine (find?_modifyFirst_self (fun c => by rw [hid]) E.topics).trans ?_
  rw [show E.topics.find? _ = some b from hb]
  rfl

theorem getTopicById_modifyById_of_ne {id i : Nat} (hb : E.getTopicById id = some b) (hi : i ≠ id)
    {f : TopicState → TopicState} (hid : ∀ c, (f c).topicId = c.topicId) :
    (E.modifyById i f).getTopicById id = some b := by
  refine (find?_modifyFirst_of_disjoint (fun c => by rw [hid]) (fun c hc => ?_) E.topics).trans hb
  simpa [of_decide_eq_true hc] using Ne.symm hi

theorem getTopicById_applyPutTopic (hb : E.getTopicById id = some b) (now : Int) (name : String)
    (config : TopicConfig) (topicId : Nat) :
    (E.applyPutTopic now name config topicId).getTopicById id = some b ∨
      b.name = name ∧ (E.applyPutTopic now name config topicId).getTopicById id =
        some ({ b with config := config }.enforceRetention now) := by
  unfold applyPutTopic
  split
  · have hid : ∀ c : TopicState, ({ c with config := config }.enforceRetention now).topicId =
        c.topicId := fun c => (steady_enforceRetention _ now).topicId
    rcases find?_modifyFirst_or (p := fun c : TopicState => decide (c.name = name))
      (f := fun c => { c with config := config }.enforceRetention now)
      (fun c => by rw [hid]) hb with h | h
    · exact .inl h
    · exact .inr ⟨of_decide_eq_true h.1, h.2⟩
  · refine .inl ?_
    change (E.topics ++ _).find? _ = some b
    rw [find?_append, show E.topics.find? _ = some b from hb]
    rfl

/-- **One frame, seen from an id.** -/
theorem getTopicById_replayFrame (hb : E.getTopicById id = some b) (now : Int)
    (hf : f.configures b.name = false) :
    ∃ b', (replayFrame S now E f).getTopicById id = some b' ∧ ReplayStep S now id f b b' := by
  -- the frames that `replay_frame` routes by id
  have hroute : ∀ (E : Engine) (g : WalRecord Blob) (i : Nat), E.getTopicById id = some b →
      (g.addresses id = (i == id)) → ∃ b',
        (E.modifyById i fun c => c.replay S g).getTopicById id = some b' ∧
          ReplayStep S now id g b b' := by
    intro E g i hb hi
    by_cases hid : i = id
    · subst hid
      exact ⟨_, getTopicById_modifyById hb fun c => replay_topicId S c g, .own (by simp [hi])⟩
    · refine ⟨b, getTopicById_modifyById_of_ne hb hid fun c => replay_topicId S c g, .skip ?_⟩
      rw [hi]
      exact beq_false_of_ne hid
  cases f with
  | topicConfig topicId op tombstone ts =>
    have hname : op.name ≠ b.name := by simpa [configures] using hf
    refine ⟨b, ?_, .skip rfl⟩
    simp only [replayFrame]
    split
    · exact find?_filter_of_pos hb (decide_eq_true (Ne.symm hname))
    · exact (getTopicById_applyPutTopic hb now op.name _ topicId).resolve_right fun h =>
        hname h.1.symm
  | append topicId seq ts node tag data =>
    simp only [replayFrame]
    split
    · exact hroute E _ topicId hb rfl
    · -- the id is unknown, so it is not this topic's
      rename_i hunknown
      have hne : topicId ≠ id := by
        rintro rfl
        rw [hb] at hunknown
        exact hunknown rfl
      have haddr : (topicId == id) = false := beq_false_of_ne hne
      rcases getTopicById_applyPutTopic hb now (syntheticName topicId) {} topicId with h | ⟨-, h⟩
      · exact ⟨b, getTopicById_modifyById_of_ne h hne fun c => replay_topicId S c _, .skip haddr⟩
      · exact ⟨_, getTopicById_modifyById_of_ne h hne fun c => replay_topicId S c _, .reset haddr⟩
  | delete i | evictWatermark i | lease i | headWatermark i => exact hroute E _ i hb rfl
  | routerCreate | routerDelete | checkpointMark => exact ⟨b, hb, .skip rfl⟩

section

variable (h : ReplayStep S now id f b b')

include h

theorem ReplayStep.keeps (hid : b.topicId = id) (hp : b.config.usesPersistentRecordStore = true)
    (hf : f.appendsTo id = false) :
    b'.name = b.name ∧ b'.config.usesPersistentRecordStore = true ∧ b.Shrinks b' := by
  cases h with
  | skip => exact ⟨rfl, hp, .refl b⟩
  | own haddr =>
    subst hid
    exact ⟨b.replay_name S f, by rw [replay_config]; exact hp, b.shrinks_replay hf haddr⟩
  | reset =>
    have hsteady := steady_enforceRetention { b with config := {} } now
    refine ⟨hsteady.name, by rw [hsteady.config]; rfl, ?_⟩
    exact fun s r hs => shrinks_enforceRetention { b with config := {} } now s r hs

theorem ReplayStep.dead_of_deletesSeq (hp : b.config.usesPersistentRecordStore = true)
    (hf : f.deletesSeq id s = true) : b'.index.live s = none := by
  have haddr : f.addresses id = true := by
    cases f with
    | delete i => exact (Bool.and_eq_true_iff.mp hf).1
    | _ => cases hf
  cases h with
  | skip hskip =>
    rw [haddr] at hskip
    cases hskip
  | own => exact live_replay_of_deletesSeq hp hf
  | reset hreset =>
    rw [haddr] at hreset
    cases hreset

theorem ReplayStep.name : b'.name = b.name := by
  cases h with
  | skip => rfl
  | own => exact b.replay_name S f
  | reset => exact (steady_enforceRetention { b with config := {} } now).name

theorem ReplayStep.topicId : b'.topicId = b.topicId := by
  cases h with
  | skip => rfl
  | own => exact replay_topicId S b f
  | reset => exact (steady_enforceRetention { b with config := {} } now).topicId

end

/-! ## A run of frames -/

/-- What a run of frames that do not configure the topic does to it. -/
def Replays (S : Serde Blob) (now : Int) (id : Nat) :
    List (WalRecord Blob) → TopicState → TopicState → Prop
  | [], b, b' => b' = b
  | f :: fs, b, b' => ∃ b₁, ReplayStep S now id f b b₁ ∧ Replays S now id fs b₁ b'

theorem replays_append {fs gs : List (WalRecord Blob)} : Replays S now id (fs ++ gs) b b' ↔
      ∃ b₁, Replays S now id fs b b₁ ∧ Replays S now id gs b₁ b' := by
  induction fs generalizing b with
  | nil => simp [Replays]
  | cons f fs ih =>
    simp only [cons_append, Replays, ih]
    constructor
    · rintro ⟨b₁, hstep, b₂, hfs, hgs⟩
      exact ⟨b₂, ⟨b₁, hstep, hfs⟩, hgs⟩
    · rintro ⟨b₂, ⟨b₁, hstep, hfs⟩, hgs⟩
      exact ⟨b₁, hstep, b₂, hfs, hgs⟩

theorem Replays.preserves {P : TopicState → Prop}
    (hstep : ∀ f ∈ fs, ∀ b b', ReplayStep S now id f b b' → P b → P b')
    (h : Replays S now id fs b b') (hb : P b) : P b' := by
  induction fs generalizing b with
  | nil =>
    cases h
    exact hb
  | cons f fs ih =>
    obtain ⟨b₁, h₁, hrest⟩ := h
    exact ih (fun g hg => hstep g (mem_cons_of_mem f hg)) hrest
      (hstep f mem_cons_self b b₁ h₁ hb)

/-- **A run of frames, seen from an id.** -/
theorem exists_replays (now : Int) (hb : E.getTopicById id = some b)
    (hcfg : ∀ f ∈ fs, f.configures b.name = false) :
    ∃ b', (fs.foldl (replayFrame S now) E).getTopicById id = some b' ∧
      Replays S now id fs b b' := by
  induction fs generalizing E b with
  | nil => exact ⟨b, hb, rfl⟩
  | cons f fs ih =>
    obtain ⟨b₁, hb₁, hstep⟩ :=
      getTopicById_replayFrame (S := S) hb now (hcfg f mem_cons_self)
    obtain ⟨b', hb', hrest⟩ := ih hb₁ fun g hg => by
      rw [hstep.name]
      exact hcfg g (mem_cons_of_mem f hg)
    exact ⟨b', hb', b₁, hstep, hrest⟩

/-- **What is dead stays dead**: frames that do not append to the topic keep dead records dead,
and remove the jobs that explicit deletes name. -/
theorem Replays.dead (h : Replays S now id fs b b') (hid : b.topicId = id)
    (hp : b.config.usesPersistentRecordStore = true) (happ : ∀ f ∈ fs, f.appendsTo id = false)
    (hs : b.index.live s = none ∨ ∃ f ∈ fs, f.deletesSeq id s = true) :
    b'.index.live s = none := by
  induction fs generalizing b with
  | nil =>
    cases h
    refine hs.resolve_right fun ⟨f, hf, _⟩ => ?_
    cases hf
  | cons f fs ih =>
    obtain ⟨b₁, h₁, hrest⟩ := h
    obtain ⟨-, hp₁, hshrinks⟩ := h₁.keeps hid hp (happ f mem_cons_self)
    refine ih hrest (h₁.topicId.trans hid) hp₁ (fun g hg => happ g (mem_cons_of_mem f hg)) ?_
    rcases hs with hs | ⟨g, hg, hdel⟩
    · exact .inl (hshrinks.dead hs)
    · rcases mem_cons.mp hg with rfl | hg
      · exact .inl (h₁.dead_of_deletesSeq hp hdel)
      · exact .inr ⟨g, hg, hdel⟩

theorem getTopicById_applyHeadWatermarks (E : Engine) (id : Nat) :
    E.applyHeadWatermarks.getTopicById id =
      (E.getTopicById id).map TopicState.applyHeadWatermark := by
  simp [applyHeadWatermarks, getTopicById, find?_map, Function.comp_def]

end Engine

end Topics
