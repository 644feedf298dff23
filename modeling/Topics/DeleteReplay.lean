import Topics.AppendStream
import Topics.SelectorDelete

/-!
# Deletes and their replay

`Engine::delete` fixes its bound under `append_lock`, logs it, and removes its records when its
publish ticket has its turn; replay selects the records again from the index built so far.
-/

namespace Topics

open Lib TopicState TopicIndex List Option CommitLog

variable {Blob : Type}

/-! ## Staged batches -/

/-- The batches lie in the index one behind the other, from `next` up to the tail. -/
def Laid (ix : TopicIndex) : Nat → List (List StoredRecord × StagedAppend) → Prop
  | next, [] => ix.tail = next
  | next, (records, g) :: rest =>
    (g.start = next ∧ g.count = records.length ∧ 0 < g.count) ∧
      (∀ i r, records[i]? = some r → ix.live (next + i) = some r) ∧
      Laid ix (next + records.length) rest

namespace Laid

variable {ix ix' : TopicIndex} {next : Nat} {batches : List (List StoredRecord × StagedAppend)}

theorem le_tail (h : Laid ix next batches) : next ≤ ix.tail := by
  induction batches generalizing next with
  | nil => exact h.ge
  | cons b batches ih => exact (Nat.le_add_right _ _).trans (ih h.2.2)

theorem congr (h : Laid ix next batches) (hlive : ∀ q, next ≤ q → ix'.live q = ix.live q)
    (htail : ix'.tail = ix.tail) : Laid ix' next batches := by
  induction batches generalizing next with
  | nil => exact htail.trans h
  | cons b batches ih =>
    refine ⟨h.1, fun i r hr => ?_, ih h.2.2 fun q hq => hlive q (by omega)⟩
    rw [hlive _ (Nat.le_add_right _ _)]
    exact h.2.1 i r hr

variable {records : List StoredRecord} {g : StagedAppend}

theorem start_le (h : Laid ix next batches) (hmem : (records, g) ∈ batches) : next ≤ g.start := by
  induction batches generalizing next with
  | nil => cases hmem
  | cons b batches ih =>
    rcases mem_cons.mp hmem with rfl | hmem
    · exact h.1.1.ge
    · exact (Nat.le_add_right _ _).trans (ih h.2.2 hmem)

theorem push (h : Laid ix next batches) (hne : records ≠ [])
    (hwhole : ∀ r ∈ records, r.deleted = false) (hstart : g.start = ix.tail)
    (hcount : g.count = records.length) :
    Laid (ix.pushAll records) next (batches ++ [(records, g)]) := by
  induction batches generalizing next with
  | nil =>
    have htail : ix.tail = next := h
    refine ⟨⟨hstart.trans htail, hcount, ?_⟩, fun i r hr => ?_, ?_⟩
    · rw [hcount]
      exact length_pos_iff.mpr hne
    · rw [← htail]
      exact live_pushAll_stored hr (hwhole r (mem_of_getElem? hr))
    · change (ix.pushAll records).tail = _
      rw [tail_pushAll, htail]
  | cons b batches ih =>
    refine ⟨h.1, fun i r hr => ?_, ih h.2.2⟩
    exact live_pushAll_of_live (h.2.1 i r hr) records

end Laid

/-! ## Along a run -/

/-- The actions of `Engine::write` and `Engine::delete` calls, and of a WAL writer that does
not fail.  A write stages records that are not deleted. -/
def WriteAction.isWriteOrDelete : WriteAction → Bool
  | .stage records => records.all fun r => !r.deleted
  | .enqueue _ | .submitDelete .. | .publish | .retain _ | .retained _ => true
  | .wal (.write _) | .wal .finish | .wal (.rotate ..) => true
  | _ => false

namespace WritePath

def ticketFrames (S : Serde Blob) (spec : TopicSpec) (t : Ticket) : List (WalRecord Blob) :=
  match t.op with
  | .append records g now => appendFrames S spec.topicId now g records
  | .delete beforeSeq match_ boundHead now =>
    [.delete spec.topicId beforeSeq match_ [] (some boundHead) now.toNat]

def ticketBatch (t : Ticket) : Option (List StoredRecord × StagedAppend) :=
  match t.op with
  | .append records g _ => some (records, g)
  | .delete .. => none

/-- The batches that are staged and not yet published, in the order of their seqs. -/
def staged (s : WritePath Blob) : List (List StoredRecord × StagedAppend) :=
  s.tickets.filterMap ticketBatch ++ s.locked.toList

/-- The invariant; `done` are the frames of the tickets that had their turn. -/
structure Followed (S : Serde Blob) (spec : TopicSpec) (done : List (WalRecord Blob))
    (s : WritePath Blob) : Prop extends Base S spec s where
  idle : s.passes = [] ∧ s.reserving = none
  clean : ∀ e ∈ s.wal.settled, e.2 = true
  waiting : ∀ x ∈ s.wal.pending, ∃ t ∈ s.tickets, t.token = x.id
  stream : s.wal.stream = done ++ s.tickets.flatMap (ticketFrames S spec)
  same : SameToHead (spec.fresh.replayAll S done) s.topic
  laid : Laid s.topic.index (s.topic.headSeq + 1) s.staged
  bounds : ∀ t ∈ s.tickets, ∀ b m h n, t.op = .delete b m h n → h ≤ s.topic.headSeq + 1
  top_le : s.topic.floors.top ≤ s.topic.headSeq
  below : s.topic.index.deleteBelow ≤ s.topic.floors.deleteFloor + 1
  above : ∀ q r, s.topic.index.live q = some r → s.topic.floors.top < q

theorem mem_pending_submit {w : CommitLog (WalRecord Blob)} {frames : List (WalRecord Blob)}
    {d : Bool} {x : Submission (WalRecord Blob)} (hx : x ∈ (w.submit frames d).pending) :
    x ∈ w.pending ∨ x.id = w.nextId := by
  unfold pending submit at *
  simp only [mem_append, mem_singleton] at hx ⊢
  rcases hx with hx | hx | rfl
  · exact .inl (.inl hx)
  · exact .inl (.inr hx)
  · exact .inr rfl

namespace Followed

variable {S : Serde Blob} {spec : TopicSpec} {done : List (WalRecord Blob)}
  {s s' : WritePath Blob} (h : Followed S spec done s)

include h

variable {records : List StoredRecord} {now : Int} {beforeSeq : Option Nat} {match_ : Option Filter}
  {rest : List Ticket} {ok : Bool} {token bound : Nat}

theorem stage (hwhole : ∀ r ∈ records, r.deleted = false)
    (hstep : step S spec s (.stage records) = some s') : Followed S spec done s' := by
  have hbase := h.toBase.step hstep
  obtain ⟨hguard, hstep⟩ := ite_none_right_eq_some.mp hstep
  have hl : s.locked = none := isNone_iff_eq_none.mp hguard.1
  have htail := h.laid.le_tail
  cases hstep
  refine ⟨hbase, h.idle, h.clean, h.waiting, h.stream, h.same.stage htail hwhole, ?_, h.bounds,
    h.top_le, ?_, fun q r hr => ?_⟩
  · have hlaid := h.laid
    unfold staged at hlaid ⊢
    rw [hl, toList_none, append_nil] at hlaid
    exact hlaid.push hguard.2 hwhole rfl rfl
  · simp only [stageAppend, pushAll_deleteBelow]
    exact h.below
  · -- a staged record lies behind the head
    simp only [stageAppend] at hr ⊢
    rw [live_pushAll] at hr
    split at hr
    · exact h.above q r hr
    · have := h.top_le
      omega

theorem enqueue (hstep : step S spec s (.enqueue now) = some s') :
    Followed S spec done s' := by
  have hbase := h.toBase.step hstep
  simp only [step] at hstep
  split at hstep
  · cases hstep
  · rename_i records g hl
    cases hstep
    refine ⟨hbase, h.idle, h.clean, fun x hx => ?_, ?_, h.same, ?_, ?_, h.top_le, h.below, h.above⟩
    · rcases mem_pending_submit hx with hx | hx
      · obtain ⟨t, ht, hid⟩ := h.waiting x hx
        exact ⟨t, mem_append_left _ ht, hid⟩
      · exact ⟨_, mem_append_right _ mem_cons_self, hx.symm⟩
    · rw [stream_submit, h.stream, flatMap_append, append_assoc, flatMap_singleton]
      rfl
    · have hlaid := h.laid
      unfold staged at hlaid ⊢
      rw [hl] at hlaid
      rw [filterMap_append, toList_none, append_nil]
      exact hlaid
    · intro t ht b m bound n hop
      rcases mem_append.mp ht with ht | ht
      · exact h.bounds t ht b m bound n hop
      · cases mem_singleton.mp ht
        cases hop

theorem submitDelete (hstep : step S spec s (.submitDelete beforeSeq match_ now) = some s') :
    Followed S spec done s' := by
  have hbase := h.toBase.step hstep
  obtain ⟨-, ⟨⟩⟩ := ite_none_right_eq_some.mp hstep
  refine ⟨hbase, h.idle, h.clean, fun x hx => ?_, ?_, h.same, ?_, ?_, h.top_le, h.below, h.above⟩
  · rcases mem_pending_submit hx with hx | hx
    · obtain ⟨t, ht, hid⟩ := h.waiting x hx
      exact ⟨t, mem_append_left _ ht, hid⟩
    · exact ⟨_, mem_append_right _ mem_cons_self, hx.symm⟩
  · rw [stream_submit, h.stream, flatMap_append, append_assoc, flatMap_singleton]
    rfl
  · have hlaid := h.laid
    unfold staged at hlaid ⊢
    rw [filterMap_append, append_assoc]
    exact hlaid
  · intro t ht b m bound n hop
    rcases mem_append.mp ht with ht | ht
    · exact h.bounds t ht b m bound n hop
    · cases mem_singleton.mp ht
      cases hop
      exact le_rfl

theorem wal {a : LogAction} (ha : (WriteAction.wal a).isWriteOrDelete = true)
    (hstep : step S spec s (.wal a) = some s') : Followed S spec done s' := by
  have hbase := h.toBase.step hstep
  obtain ⟨w, hw, rfl⟩ := map_eq_some_iff.mp hstep
  have hnone : s.wal.failedFrames = [] := by
    unfold failedFrames
    rw [filter_eq_nil_iff.mpr fun e he => by rw [h.clean e he]; decide]
    rfl
  have hkeep : w.stream = s.wal.stream ∧ (∀ x ∈ w.pending, x ∈ s.wal.pending) ∧
      ∀ e ∈ w.settled, e.2 = true := by
    unfold CommitLog.stream
    cases (effect_of_step hw).1 with
    | idle k hc hs hp hd =>
      rw [hc, hp, hd]
      exact ⟨rfl, fun x hx => hx, h.clean⟩
    | commit batch rest hp hp' hc hd hwr hs =>
      refine ⟨?_, fun x hx => ?_, fun e he => ?_⟩
      · rw [hc, hp, hp', framesOf_append, append_assoc]
      · rw [hp'] at hx
        rw [hp]
        exact mem_append_right _ hx
      · rw [hd] at he
        rcases mem_append.mp he with he | he
        · obtain ⟨x, -, rfl⟩ := mem_map.mp he
          rfl
        · exact h.clean e he
    | fail a batch rest hp hp' hc hd hs hfail =>
      rcases hfail with ⟨k, rfl, -⟩ | ⟨rfl, -⟩ <;> cases ha
    | leave picks sync hp hc hd hs =>
      have hgarbage : s.wal.garbage picks = [] := by
        unfold garbage
        simp [hnone]
      rw [hc, hp, hd, hgarbage, append_nil]
      exact ⟨rfl, fun x hx => hx, h.clean⟩
  exact ⟨hbase, h.idle, hkeep.2.2, fun x hx => h.waiting x (hkeep.2.1 x hx),
    hkeep.1.trans h.stream, h.same, h.laid, h.bounds, h.top_le, h.below, h.above⟩

theorem waiting_rest {t : Ticket} (ht : s.tickets = t :: rest)
    (ho : s.wal.outcome t.token = some ok) :
    ∀ x ∈ s.wal.pending, ∃ t' ∈ rest, t'.token = x.id := by
  intro x hx
  obtain ⟨t', ht', hid⟩ := h.waiting x hx
  rw [ht] at ht'
  rcases mem_cons.mp ht' with rfl | ht'
  · exact absurd hid.symm (h.wf.ne_of_outcome ho hx)
  · exact ⟨t', ht', hid⟩

theorem publishBatch {g : StagedAppend} (ht : s.tickets = ⟨token, .append records g now⟩ :: rest)
    (ho : s.wal.outcome token = some true)
    (hbase : Base S spec (s.publishBatch rest s.topic records g)) :
    Followed S spec (done ++ appendFrames S spec.topicId now g records)
      (s.publishBatch rest s.topic records g) := by
  have hstaged : s.staged = (records, g) :: (rest.filterMap ticketBatch ++ s.locked.toList) := by
    unfold staged
    rw [ht]
    rfl
  have hlaid := h.laid
  rw [hstaged] at hlaid
  obtain ⟨⟨hstart, hcount, hpos⟩, hlive, hrest⟩ := hlaid
  have hhead : (s.topic.publishStagedNoSeal g).headSeq = s.topic.headSeq + records.length := by
    rw [publishStagedNoSeal, if_neg hpos.ne']
    unfold StagedAppend.publishHead
    simp only
    omega
  have hfloors : (s.topic.publishStagedNoSeal g).floors = s.topic.floors := by
    rw [publishStagedNoSeal]
    split <;> rfl
  have hindex : (s.topic.publishStagedNoSeal g).index = s.topic.index :=
    publishStagedNoSeal_index s.topic g
  have hreplay : spec.fresh.replayAll S (done ++ appendFrames S spec.topicId now g records) =
      (spec.fresh.replayAll S done).append (records.map (replayedRecord S now)) := by
    have hseqs : g.seqs =
        range' ((spec.fresh.replayAll S done).headSeq + 1) records.length := by
      rw [StagedAppend.seqs, hstart, hcount, h.same.headSeq]
    rw [replayAll_append, appendFrames, hseqs]
    exact foldl_appendFrames (fun _ _ _ => rfl) spec.topicId now records
      h.same.sound.persistent h.same.sound.dense
  refine ⟨hbase, ⟨h.idle.1, rfl⟩, h.clean, h.waiting_rest ht ho, ?_, ?_, ?_, ?_, ?_, ?_, ?_⟩
  · change s.wal.stream = _
    rw [h.stream, ht, flatMap_cons, append_assoc]
    rfl
  · rw [hreplay]
    exact h.same.publish S now hstart hcount hpos fun i r hr => hstart ▸ hlive i r hr
  · change Laid (s.topic.publishStagedNoSeal g).index
      ((s.topic.publishStagedNoSeal g).headSeq + 1) _
    rw [hindex, hhead, Nat.add_right_comm]
    exact hrest
  · intro t htm b m bound n hop
    have hle := h.bounds t (by rw [ht]; exact mem_cons_of_mem _ htm) b m bound n hop
    change bound ≤ (s.topic.publishStagedNoSeal g).headSeq + 1
    rw [hhead]
    omega
  · change (s.topic.publishStagedNoSeal g).floors.top ≤ (s.topic.publishStagedNoSeal g).headSeq
    rw [hfloors, hhead]
    exact h.top_le.trans (Nat.le_add_right _ _)
  · change (s.topic.publishStagedNoSeal g).index.deleteBelow ≤
      (s.topic.publishStagedNoSeal g).floors.deleteFloor + 1
    rw [hindex, hfloors]
    exact h.below
  · intro q r hr
    change (s.topic.publishStagedNoSeal g).index.live q = some r at hr
    change (s.topic.publishStagedNoSeal g).floors.top < q
    rw [hindex] at hr
    rw [hfloors]
    exact h.above q r hr

theorem live_applyDelete {bound q : Nat} (hq : bound ≤ q) :
    (s.topic.applyDelete beforeSeq match_ (some bound) now).index.live q =
      s.topic.index.live q := by
  have hdel : s.topic.index.deleteBelow ≤ s.topic.floors.top + 1 := by
    have := h.below
    unfold Floors.top
    omega
  by_cases htop : s.topic.floors.top < q
  · exact live_applyDelete_of_bound_le h.same.unlimited' h.same.tagExact
      h.same.seqBase hq htop (by omega)
  · -- below the floors nothing is live, before or after
    have hnone : s.topic.index.live q = none := by
      cases hlive : s.topic.index.live q with
      | none => rfl
      | some r => exact absurd (h.above q r hlive) htop
    rw [live_applyDelete_of_unlimited h.same.unlimited', hnone]
    split <;> rfl

theorem applyDelete (ht : s.tickets = ⟨token, .delete beforeSeq match_ bound now⟩ :: rest)
    (ho : s.wal.outcome token = some true) (hs' : s' = { s with
      topic := s.topic.applyDelete beforeSeq match_ (some bound) now, tickets := rest })
    (hbase : Base S spec s') :
    Followed S spec (done ++ [.delete spec.topicId beforeSeq match_ [] (some bound) now.toNat])
      s' := by
  subst hs'
  have hbound : bound ≤ s.topic.headSeq + 1 :=
    h.bounds _ (by rw [ht]; exact mem_cons_self) beforeSeq match_ bound now rfl
  have hst := steady_applyDelete s.topic beforeSeq match_ (some bound) now
  have hreplay : spec.fresh.replayAll S
      (done ++ [.delete spec.topicId beforeSeq match_ [] (some bound) now.toNat]) =
      (spec.fresh.replayAll S done).applyDelete beforeSeq match_ (some bound)
        (asI64 now.toNat) := by
    rw [replayAll_append]
    exact replay_delete (S := S) h.same.sound.persistent spec.topicId _ _ _ _ _
  have hfloors : (s.topic.applyDelete beforeSeq match_ (some bound) now).floors = _ :=
    applyDelete_floors h.same.unlimited'
  have hbelow : (s.topic.applyDelete beforeSeq match_ (some bound) now).index.deleteBelow = _ :=
    applyDelete_deleteBelow h.same.unlimited'
  have hraised : raisedBelow s.topic.index.deleteBelow beforeSeq match_ bound ≤
      s.topic.headSeq + 1 := by
    have := h.below
    have := h.top_le
    unfold Floors.top at this
    unfold raisedBelow
    split <;> omega
  have htop : (s.topic.applyDelete beforeSeq match_ (some bound) now).floors.top ≤
      s.topic.headSeq := by
    have := h.top_le
    rw [hfloors]
    unfold Floors.top at this ⊢
    simp only
    omega
  refine ⟨hbase, h.idle, h.clean, h.waiting_rest ht ho, ?_, ?_, ?_, ?_, ?_, ?_, ?_⟩
  · change s.wal.stream = _
    rw [h.stream, ht, flatMap_cons, append_assoc]
    rfl
  · rw [hreplay]
    exact h.same.applyDelete hbound _ _
  · change Laid (s.topic.applyDelete beforeSeq match_ (some bound) now).index
      ((s.topic.applyDelete beforeSeq match_ (some bound) now).headSeq + 1) _
    have hlaid := h.laid
    unfold staged at hlaid
    rw [ht] at hlaid
    rw [hst.headSeq]
    exact hlaid.congr (fun q hq => h.live_applyDelete (hbound.trans hq)) hst.tail
  · intro t htm b m bound' n hop
    change bound' ≤ (s.topic.applyDelete beforeSeq match_ (some bound) now).headSeq + 1
    rw [hst.headSeq]
    exact h.bounds t (by rw [ht]; exact mem_cons_of_mem _ htm) b m bound' n hop
  · change _ ≤ (s.topic.applyDelete beforeSeq match_ (some bound) now).headSeq
    rw [hst.headSeq]
    exact htop
  · change (s.topic.applyDelete beforeSeq match_ (some bound) now).index.deleteBelow ≤
      (s.topic.applyDelete beforeSeq match_ (some bound) now).floors.deleteFloor + 1
    rw [hfloors, hbelow]
    simp only
    omega
  · -- what is live behind a delete lies above the floor it raised
    intro q r hr
    rw [live_applyDelete_of_unlimited h.same.unlimited'] at hr
    split at hr
    · cases hr
    · rename_i hkept
      have hge := not_lt.mp fun hlt => hkept (.inl hlt)
      have := h.same.seqBase
      unfold Floors.earliestSeq at hge
      change (s.topic.applyDelete beforeSeq match_ (some bound) now).floors.top < q
      omega

theorem outcome_eq_true (ho : s.wal.outcome token = some ok) :
    ok = true := by
  obtain ⟨e, hfind, rfl⟩ := map_eq_some_iff.mp ho
  exact h.clean e (mem_of_find?_eq_some hfind)

theorem publish (hstep : step S spec s .publish = some s') : ∃ done', Followed S spec done' s' := by
  have hbase := h.toBase.step hstep
  simp only [step, takeTurn] at hstep
  split at hstep
  · rename_i token op rest hr ht
    split at hstep
    · rename_i records g now ho
      split at hstep
      · cases hstep
      · cases hstep
        exact ⟨_, h.publishBatch ht ho hbase⟩
    · rename_i ho
      cases h.outcome_eq_true ho
    · rename_i beforeSeq match_ bound now ho
      cases hstep
      exact ⟨_, h.applyDelete ht ho rfl hbase⟩
    · rename_i ho
      cases h.outcome_eq_true ho
    · cases hstep
  · cases hstep

/-- **One step.** -/
theorem step {a : WriteAction} (ha : a.isWriteOrDelete = true)
    (hstep : WritePath.step S spec s a = some s') : ∃ done', Followed S spec done' s' := by
  cases a with
  | stage records =>
    refine ⟨done, h.stage (fun r hr => ?_) hstep⟩
    have hall := all_eq_true.mp ha r hr
    simpa using hall
  | enqueue now => exact ⟨done, h.enqueue hstep⟩
  | submitDelete beforeSeq match_ now => exact ⟨done, h.submitDelete hstep⟩
  | wal a => exact ⟨done, h.wal ha hstep⟩
  | publish => exact h.publish hstep
  | retain now =>
    -- without limits a retention pass has nothing to do
    simp only [WritePath.step, retainNow, some.injEq,
      retentionIdle_of_limits h.same.unlimited', if_true] at hstep
    subst hstep
    exact ⟨done, h⟩
  | retained i =>
    simp only [WritePath.step, h.idle.1] at hstep
    cases hstep
  | enqueueFail | reserve | reserveRefused | reserved | logDeleteSeqs | deleteSeqs | crash =>
    cases ha

end Followed

theorem followed_init {S : Serde Blob} {spec : TopicSpec}
    (hp : spec.config.usesPersistentRecordStore = true) (hlim : spec.config.limits = false) :
    Followed S spec [] (WritePath.init spec) := by
  have hsound : spec.fresh.Sound := sound_new hp
  refine ⟨Base.init, ⟨rfl, rfl⟩, fun e he => (not_mem_nil he).elim,
    fun x hx => (not_mem_nil hx).elim, rfl, ?_, ?_, fun t ht => (not_mem_nil ht).elim,
    le_rfl, Nat.zero_le _, fun q r hr => ?_⟩
  · exact ⟨hsound, rfl, hsound.tagExact, hlim, hlim, rfl, rfl, rfl, fun q _ => rfl⟩
  · exact hsound.dense
  · have hnone : (WritePath.init spec : WritePath Blob).topic.index.live q = none := by
      simp [WritePath.init, TopicSpec.fresh, TopicState.new, TopicIndex.new, TopicIndex.live,
        TopicIndex.get]
    rw [hnone] at hr
    cases hr

/-! ## Replay after all calls have returned -/

/-- Two topics show the same records: live seqs, delete floor and tag index. -/
structure SameRecords (b b' : TopicState) : Prop where
  live : ∀ q, (b'.index.live q).isSome = (b.index.live q).isSome
  deleteFloor : b'.floors.deleteFloor = b.floors.deleteFloor
  tagIndex : ∀ t : String, b'.index.tagIndex[t]? = b.index.tagIndex[t]?

/-- What a delete that has its turn leaves alone: whatever lies at or behind its bound, every
batch staged so far and every later one among it, live and when its frame is replayed. -/
structure PointInTime (S : Serde Blob) (spec : TopicSpec) (s : WritePath Blob)
    (beforeSeq : Option Nat) (match_ : Option Filter) (bound : Nat) (now : Int) : Prop where
  staged : ∀ batch ∈ s.staged, bound ≤ batch.2.start
  next : bound ≤ s.topic.index.tail
  live : ∀ q, bound ≤ q →
    (s.topic.applyDelete beforeSeq match_ (some bound) now).index.live q = s.topic.index.live q
  replay : ∃ done rest, s.wal.stream =
      done ++ .delete spec.topicId beforeSeq match_ [] (some bound) now.toNat :: rest ∧
    ∀ q, bound ≤ q → ((spec.fresh.replayAll S done).replay S
        (.delete spec.topicId beforeSeq match_ [] (some bound) now.toNat)).index.live q =
      (spec.fresh.replayAll S done).index.live q

section Results

variable {S : Serde Blob} {spec : TopicSpec} {done : List (WalRecord Blob)} {s : WritePath Blob}

theorem Followed.sameRecords (h : Followed S spec done s) (hl : s.locked = none)
    (ht : s.tickets = []) :
    SameRecords s.topic (spec.fresh.replayAll S done).applyHeadWatermark := by
  have htail : s.topic.index.tail = s.topic.headSeq + 1 := by
    have hlaid := h.laid
    unfold WritePath.staged at hlaid
    rw [hl, ht] at hlaid
    exact hlaid
  have hlive : ∀ q, ((spec.fresh.replayAll S done).index.live q).map (·.tag) =
      (s.topic.index.live q).map (·.tag) := by
    intro q
    by_cases hq : q ≤ s.topic.headSeq
    · exact h.same.live q hq
    · have hR := h.same.sound.dense
      have hhead := h.same.headSeq
      rw [live_eq_none_of_tail_le (by omega),
        live_eq_none_of_tail_le (by omega)]
  refine ⟨fun q => ?_, ?_, fun t => ?_⟩
  · rw [live_applyHeadWatermark, ← isSome_map, hlive q, isSome_map]
  · rw [applyHeadWatermark_floors, h.same.floors]
  · refine h.same.tagExact.getElem?_congr
      (tagExact_applyHeadWatermark h.same.sound.tagExact) (fun q => ?_) t
    rw [live_applyHeadWatermark]
    exact hlive q

theorem Followed.log_eq (h : Followed S spec done s) (ht : s.tickets = []) :
    s.wal.log = done := by
  have hpending : s.wal.pending = [] := by
    refine eq_nil_iff_forall_not_mem.mpr fun x hx => ?_
    obtain ⟨t, hmem, -⟩ := h.waiting x hx
    rw [ht] at hmem
    cases hmem
  have hstream := h.stream
  rw [ht, flatMap_nil, append_nil] at hstream
  have hparts := append_eq_nil_iff.mp hpending
  rw [← hstream, stream_eq, hparts.2, framesOf_nil, append_nil]

theorem Followed.pointInTime (h : Followed S spec done s) {token : Nat} {beforeSeq : Option Nat}
    {match_ : Option Filter} {bound : Nat} {now : Int} {rest : List Ticket}
    (ht : s.tickets = ⟨token, .delete beforeSeq match_ bound now⟩ :: rest) :
    PointInTime S spec s beforeSeq match_ bound now := by
  have hbound : bound ≤ s.topic.headSeq + 1 :=
    h.bounds _ (by rw [ht]; exact mem_cons_self) beforeSeq match_ bound now rfl
  refine ⟨fun batch hmem => hbound.trans (h.laid.start_le hmem), hbound.trans h.laid.le_tail,
    fun q hq => h.live_applyDelete hq, done, rest.flatMap (ticketFrames S spec), ?_, ?_⟩
  · rw [h.stream, ht, flatMap_cons]
    rfl
  · intro q hq
    rw [replay_delete (S := S) h.same.sound.persistent]
    change ((spec.fresh.replayAll S done).applyDelete _ _ _ _).index.live q = _
    have hbelow : (spec.fresh.replayAll S done).index.deleteBelow ≤
        (spec.fresh.replayAll S done).floors.top + 1 := by
      have := h.below
      rw [h.same.deleteBelow, h.same.floors]
      unfold Floors.top
      omega
    by_cases htop : (spec.fresh.replayAll S done).floors.top < q
    · exact live_applyDelete_of_bound_le h.same.unlimited h.same.sound.tagExact
        h.same.sound.seqBase hq htop (by omega)
    · have hnone : (spec.fresh.replayAll S done).index.live q = none := by
        cases hlive : (spec.fresh.replayAll S done).index.live q with
        | none => rfl
        | some r =>
          rw [h.same.floors] at htop
          have hle : q ≤ s.topic.headSeq := (not_lt.mp htop).trans h.top_le
          obtain ⟨r', hr', -⟩ :=
            (h.same.exists_live_iff hle fun _ => True).mp ⟨r, hlive, trivial⟩
          exact absurd (h.above q r' hr') htop
      rw [live_applyDelete_of_unlimited h.same.unlimited, hnone]
      split <;> rfl

/-- **Deletes replay exactly.**  In every run of writes and deletes of an `fsync` topic without
limits whose WAL does not fail: once all calls have returned, recovery from the whole log has
the live seqs, the delete floor and the tag index of the live topic; and whenever a delete has
its turn, it takes no record appended after its bound was fixed, live or on replay. -/
theorem deletes_replay_exactly (hS : S.RoundTrips)
    (hfs : spec.config.durabilityClass = .fsync) (hlim : spec.config.limits = false)
    {as : List WriteAction} (has : ∀ a ∈ as, a.isWriteOrDelete = true)
    (hrun : exec (WritePath.step S spec) (WritePath.init spec) as = some s) :
    (s.locked = none → s.tickets = [] → ∀ now,
      ∃ topic, spec.recover S now s.wal.log = some topic ∧ SameRecords s.topic topic) ∧
    ∀ token beforeSeq match_ bound now rest,
      s.tickets = ⟨token, .delete beforeSeq match_ bound now⟩ :: rest →
        PointInTime S spec s beforeSeq match_ bound now := by
  obtain ⟨done, h⟩ : ∃ done, Followed S spec done s :=
    exec_invariant_along (I := fun s => ∃ done, Followed S spec done s) _
      (fun _ _ _ ⟨_, hi⟩ hc hs => hi.step hc.1 hs)
      ⟨[], followed_init (TopicRun.persistent_of_fsync hfs) hlim⟩
      ((along_true _ _ as).and_mem _ has) hrun
  refine ⟨fun hl ht now => ?_, fun token beforeSeq match_ bound now rest ht => h.pointInTime ht⟩
  refine ⟨_, ?_, h.sameRecords hl ht⟩
  rw [h.log_eq ht]
  refine spec.recover_eq hS now fun f hf => ?_
  refine h.addressed.survivors s.wal.log.length [] f (mem_append_left _ ?_)
  rw [take_length, h.log_eq ht]
  exact hf

end Results

/-- Two records tagged `a` and `b` are published; a third one tagged `a` is in line when a
delete of the tag `a` fixes its bound, and a fourth one follows before any of them is
committed. -/
def deleteAmongWrites : List WriteAction :=
  [.stage [.plain (some "a"), .plain (some "b")], .enqueue 0, .wal (.write 1), .wal .finish,
    .publish, .stage [.plain (some "a")], .enqueue 0, .submitDelete none (some ⟨.glob, "a"⟩) 0,
    .stage [.plain (some "a")], .enqueue 0, .wal (.write 3), .wal .finish, .publish, .publish,
    .publish]

theorem deletes_replay_exactly_deleteAmongWrites :
    ∃ s, exec (WritePath.step Serde.identity (.ofClass .fsync))
        (WritePath.init (.ofClass .fsync)) deleteAmongWrites = some s ∧
      (List.range 6).filter (fun q => (s.topic.index.live q).isSome) = [2, 3, 4] ∧
      ∃ topic, (TopicSpec.ofClass .fsync).recover Serde.identity 0 s.wal.log = some topic ∧
        SameRecords s.topic topic := by
  have has : ∀ a ∈ deleteAmongWrites, a.isWriteOrDelete = true := by decide
  refine ⟨_, rfl, by decide, ?_⟩
  exact (deletes_replay_exactly Serde.identity_roundTrips rfl rfl has rfl).1 rfl rfl 0

end WritePath

end Topics
