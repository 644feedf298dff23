import Topics.KeyedWrites

/-!
# Writes that fail

A write may fail at every exit of `Engine::write`.  Before the publish nothing of it can be seen: a
batch the log refuses is cut off the tail, a batch whose commit or reservation fails is marked deleted
in place when its turn comes.  Behind the publish there is one exit left, the watermark of the second
retention pass: there the caller gets an error although the batch is visible, and a retry under the
same key finds no entry and publishes the batch again.
-/

namespace Topics

open Lib TopicState TopicIndex Option Outcome FloorState

/-! ## The line of staged batches -/

structure QueuedBatch where
  thread : Nat
  staged : StagedAppend
  stored : List StoredRecord

def Batch.slots (p : Batch) : List (Nat × StoredRecord) := p.seqs.zip p.records

/-- The batches lie between `lo` and `tail`, one behind the other; failed ones have left gaps. -/
def InOrder : List QueuedBatch → Nat → Nat → Prop
  | [], lo, tail => lo ≤ tail
  | e :: line, lo, tail => lo ≤ e.staged.start ∧ InOrder line (e.staged.start + e.staged.count) tail

namespace InOrder

variable {line : List QueuedBatch} {lo lo' tail : Nat}

theorem mono (h : InOrder line lo tail) (hle : lo' ≤ lo) : InOrder line lo' tail := by
  cases line with
  | nil => exact hle.trans h
  | cons e line => exact ⟨hle.trans h.1, h.2⟩

theorem le_tail (h : InOrder line lo tail) : lo ≤ tail := by
  induction line generalizing lo with
  | nil => exact h
  | cons e line ih => exact h.1.trans ((Nat.le_add_right _ _).trans (ih h.2))

variable {e : QueuedBatch}

theorem le_start (h : InOrder line lo tail) (he : e ∈ line) : lo ≤ e.staged.start := by
  induction line generalizing lo with
  | nil => cases he
  | cons x line ih =>
    rcases List.mem_cons.mp he with rfl | he
    · exact h.1
    · exact h.1.trans ((Nat.le_add_right _ _).trans (ih h.2 he))

theorem end_le (h : InOrder line lo tail) (he : e ∈ line) :
    e.staged.start + e.staged.count ≤ tail := by
  induction line generalizing lo with
  | nil => cases he
  | cons x line ih =>
    rcases List.mem_cons.mp he with rfl | he
    · exact h.2.le_tail
    · exact ih h.2 he

theorem concat (h : InOrder line lo tail) (hstart : e.staged.start = tail) :
    InOrder (line ++ [e]) lo (tail + e.staged.count) := by
  induction line generalizing lo with
  | nil => exact ⟨hstart ▸ h, by rw [hstart]; exact le_rfl⟩
  | cons x line ih => exact ⟨h.1, ih h.2⟩

theorem dropLast (h : InOrder (line ++ [e]) lo tail) : InOrder line lo e.staged.start := by
  induction line generalizing lo with
  | nil => exact h.1
  | cons x line ih => exact ⟨h.1, ih h.2⟩

end InOrder

theorem mem_zip_range'_iff {start count q : Nat} {r : StoredRecord} {stored : List StoredRecord}
    (hcount : count = stored.length) :
    (q, r) ∈ (List.range' start count).zip stored ↔ ∃ n, q = start + n ∧ stored[n]? = some r := by
  subst hcount
  constructor
  · intro h
    obtain ⟨n, hn⟩ := List.mem_iff_getElem?.mp h
    obtain ⟨hq, hr⟩ := List.getElem?_zip_eq_some.mp hn
    refine ⟨n, ?_, hr⟩
    have hlt := (List.getElem?_eq_some_iff.mp hr).1
    rw [List.getElem?_range' hlt] at hq
    simpa using (some.inj hq).symm
  · rintro ⟨n, rfl, hr⟩
    have hlt := (List.getElem?_eq_some_iff.mp hr).1
    refine List.mem_iff_getElem?.mpr ⟨n, List.getElem?_zip_eq_some.mpr ⟨?_, hr⟩⟩
    rw [List.getElem?_range' hlt]
    simp

/-! ## The slots of the topic -/

/-- What a retention pass does to a topic: it takes away records below the floors. -/
structure Trims (b b' : TopicState) : Prop where
  head : b'.headSeq = b.headSeq
  tail : b'.index.tail = b.index.tail
  base : b.seqBase = b'.seqBase
  floors : b.floors.Le b'.floors
  live : ∀ q r, b'.index.live q = some r → b.index.live q = some r
  gone : ∀ q r, b.index.live q = some r →
    b'.index.live q = some r ∨ q < b'.floors.earliestSeq b'.seqBase b'.headSeq

/-- The slots: what is live up to the head was published and what is live behind it waits in line;
a published record is live or below the floors. -/
structure Slots (b : TopicState) (published : List Batch) (line : List QueuedBatch) : Prop where
  order : InOrder line (b.headSeq + 1) b.index.tail
  filled : ∀ e ∈ line, e.staged.count = e.stored.length ∧
    ∀ n r, e.stored[n]? = some r → b.index.live (e.staged.start + n) = some r
  visible : ∀ q r, q ≤ b.headSeq → b.index.live q = some r → ∃ p ∈ published, (q, r) ∈ p.slots
  hidden : ∀ q r, b.headSeq < q → b.index.live q = some r →
    ∃ e ∈ line, e.staged.start ≤ q ∧ q < e.staged.start + e.staged.count
  below : ∀ p ∈ published, ∀ x ∈ p.slots, x.1 ≤ b.headSeq
  kept : ∀ p ∈ published, ∀ x ∈ p.slots,
    b.index.live x.1 = some x.2 ∨ x.1 < b.floors.earliestSeq b.seqBase b.headSeq

theorem Floors.Le.earliestSeq {f f' : Floors} (h : f.Le f') {base head head' : Nat} (hhead : head ≤ head') :
    f.earliestSeq base head ≤ f'.earliestSeq base head' := by
  have htop := h.top
  unfold Floors.earliestSeq
  omega

theorem Floors.earliestSeq_le_succ (f : Floors) (base head : Nat) :
    f.earliestSeq base head ≤ head + 1 := by
  unfold Floors.earliestSeq
  omega

namespace Slots

variable {b b' : TopicState} {published : List Batch} {line : List QueuedBatch}

/-- **Retention.** -/
theorem trim (h : Slots b published line) (htrims : Trims b b') : Slots b' published line := by
  have hfloor : b.floors.earliestSeq b'.seqBase b.headSeq ≤ b'.floors.earliestSeq b'.seqBase b'.headSeq :=
    htrims.floors.earliestSeq htrims.head.ge
  refine ⟨?_, fun e he => ⟨(h.filled e he).1, fun n r hr => ?_⟩, fun q r hq hr => ?_, fun q r hq hr => ?_,
    fun p hp x hx => ?_, fun p hp x hx => ?_⟩
  · rw [htrims.head, htrims.tail]
    exact h.order
  · rcases htrims.gone _ r ((h.filled e he).2 n r hr) with hlive | hlt
    · exact hlive
    · -- the floors never reach behind the head
      have hstart := h.order.le_start he
      have hle := b'.floors.earliestSeq_le_succ b'.seqBase b'.headSeq
      rw [htrims.head] at hle hlt
      omega
  · exact h.visible q r (htrims.head ▸ hq) (htrims.live q r hr)
  · exact h.hidden q r (htrims.head ▸ hq) (htrims.live q r hr)
  · rw [htrims.head]
    exact h.below p hp x hx
  · rcases h.kept p hp x hx with hlive | hlt
    · exact htrims.gone _ _ hlive
    · rw [htrims.base] at hlt
      exact .inr (hlt.trans_le hfloor)

/-- **Staging.** -/
theorem stage (h : Slots b published line) (t : Nat) {stored : List StoredRecord}
    (hfresh : ∀ r ∈ stored, r.deleted = false) :
    Slots (b.stageAppend stored).1 published (line ++ [⟨t, (b.stageAppend stored).2, stored⟩]) := by
  have htail : b.headSeq < b.index.tail := h.order.le_tail
  -- a record that was there is still there, and the batch fills the slots behind the tail
  have hold : ∀ q, q < b.index.tail → (b.index.pushAll stored).live q = b.index.live q := fun q hq => by
    rw [live_pushAll, if_pos hq]
  have hlt : ∀ {q r}, b.index.live q = some r → q < b.index.tail := fun {q r} hr =>
    lt_tail_of_get (live_eq_some.mp hr).1
  refine ⟨?_, fun e he => ?_, fun q r hq hr => ?_, fun q r hq hr => ?_, h.below, fun p hp x hx => ?_⟩
  · change InOrder _ (b.headSeq + 1) (b.index.pushAll stored).tail
    rw [tail_pushAll]
    exact h.order.concat rfl
  · rcases List.mem_append.mp he with he | he
    · refine ⟨(h.filled e he).1, fun n r hr => ?_⟩
      have hlive := (h.filled e he).2 n r hr
      exact (hold _ (hlt hlive)).trans hlive
    · cases List.mem_singleton.mp he
      refine ⟨rfl, fun n r hr => ?_⟩
      exact live_pushAll_stored hr (hfresh r (List.mem_of_getElem? hr))
  · have hq' : q ≤ b.headSeq := hq
    exact h.visible q r hq' ((hold q (by omega)).symm.trans hr)
  · by_cases hlt' : q < b.index.tail
    · obtain ⟨e, he, hrange⟩ := h.hidden q r hq ((hold q hlt').symm.trans hr)
      exact ⟨e, List.mem_append_left _ he, hrange⟩
    · refine ⟨_, List.mem_append_right _ (List.mem_singleton_self _), not_lt.mp hlt', ?_⟩
      change (b.index.pushAll stored).live q = some r at hr
      have hbound := lt_tail_of_get (live_eq_some.mp hr).1
      rw [tail_pushAll] at hbound
      exact hbound
  · rcases h.kept p hp x hx with hlive | hfloor
    · exact .inl ((hold _ (hlt hlive)).trans hlive)
    · exact .inr hfloor

/-- **The log refuses the batch**: it is cut off the tail, while the front is where it was. -/
theorem truncate {e : QueuedBatch} (h : Slots b published (line ++ [e]))
    (htail : b.index.tail = e.staged.start + e.staged.count)
    (hfront : b.index.records.length = e.staged.preLen + e.staged.count) :
    Slots (b.rollbackStaged e.staged) published line := by
  have hmem : e ∈ line ++ [e] := List.mem_append_right _ (List.mem_singleton_self e)
  unfold rollbackStaged
  split
  · -- an empty batch has no slots
    rename_i hzero
    refine ⟨?_, fun e' he' => h.filled e' (List.mem_append_left _ he'), h.visible, fun q r hq hr => ?_,
      h.below, h.kept⟩
    · rw [htail, hzero]
      exact h.order.dropLast
    · obtain ⟨e', he', hrange⟩ := h.hidden q r hq hr
      rcases List.mem_append.mp he' with he' | he'
      · exact ⟨e', he', hrange⟩
      · cases List.mem_singleton.mp he'
        omega
  · have hcut : b.index.baseSeq + e.staged.preLen = e.staged.start := by
      unfold tail at htail
      omega
    have hlive : ∀ q, (b.index.truncate e.staged.preLen).live q =
        if q < e.staged.start then b.index.live q else none := fun q => by
      unfold live
      rw [get_truncate, hcut]
      split <;> rfl
    have hback : ∀ {q r}, (b.index.truncate e.staged.preLen).live q = some r →
        q < e.staged.start ∧ b.index.live q = some r := fun {q r} hr => by
      rw [hlive] at hr
      split at hr
      · rename_i hlt
        exact ⟨hlt, hr⟩
      · cases hr
    have hhead := h.order.le_start hmem
    refine ⟨?_, fun e' he' => ⟨(h.filled e' (List.mem_append_left _ he')).1, fun n r hr => ?_⟩,
      fun q r hq hr => h.visible q r hq (hback hr).2, fun q r hq hr => ?_, h.below, fun p hp x hx => ?_⟩
    · change InOrder line (b.headSeq + 1) (b.index.truncate e.staged.preLen).tail
      rw [tail_truncate, hfront, min_eq_left (Nat.le_add_right _ _), hcut]
      exact h.order.dropLast
    · have hfilled := h.filled e' (List.mem_append_left _ he')
      have hlt := (List.getElem?_eq_some_iff.mp hr).1
      have hend := h.order.dropLast.end_le he'
      change (b.index.truncate e.staged.preLen).live _ = some r
      rw [hlive, if_pos (by rw [hfilled.1] at hend; omega)]
      exact hfilled.2 n r hr
    · obtain ⟨hlt, hr⟩ := hback hr
      obtain ⟨e', he', hrange⟩ := h.hidden q r hq hr
      rcases List.mem_append.mp he' with he' | he'
      · exact ⟨e', he', hrange⟩
      · cases List.mem_singleton.mp he'
        omega
    · rcases h.kept p hp x hx with hx' | hfloor
      · have hbelow := h.below p hp x hx
        left
        change (b.index.truncate e.staged.preLen).live x.1 = some x.2
        rw [hlive, if_pos (by omega)]
        exact hx'
      · exact .inr hfloor

/-- **The first batch in line fails**: its slots are marked deleted in place. -/
theorem rollback {e : QueuedBatch} (h : Slots b published (e :: line)) :
    Slots (b.rollbackStagedBySeqs e.staged) published line := by
  have hlive : ∀ q, (b.rollbackStagedBySeqs e.staged).index.live q =
      if q ∈ e.staged.seqs then none else b.index.live q := fun q => live_markAll ..
  have hmem : ∀ q, q ∈ e.staged.seqs ↔ e.staged.start ≤ q ∧ q < e.staged.start + e.staged.count :=
    fun q => List.mem_range'_1
  have hback : ∀ {q r}, (b.rollbackStagedBySeqs e.staged).index.live q = some r →
      q ∉ e.staged.seqs ∧ b.index.live q = some r := fun {q r} hr => by
    rw [hlive] at hr
    split at hr
    · cases hr
    · rename_i hnot
      exact ⟨hnot, hr⟩
  have hkeep : ∀ {q r}, q ∉ e.staged.seqs → b.index.live q = some r →
      (b.rollbackStagedBySeqs e.staged).index.live q = some r := fun {q r} hnot hr => by
    rw [hlive, if_neg hnot]
    exact hr
  have hstart : b.headSeq + 1 ≤ e.staged.start := h.order.1
  refine ⟨?_, fun e' he' => ⟨(h.filled e' (List.mem_cons_of_mem _ he')).1, fun n r hr => ?_⟩,
    fun q r hq hr => h.visible q r hq (hback hr).2, fun q r hq hr => ?_, h.below, fun p hp x hx => ?_⟩
  · change InOrder line (b.headSeq + 1) (markAll b.index e.staged.seqs).1.tail
    rw [tail_markAll]
    exact h.order.2.mono (by omega)
  · -- the batches behind it lie behind its slots
    have hafter := h.order.2.le_start he'
    refine hkeep (fun hin => ?_) ((h.filled e' (List.mem_cons_of_mem _ he')).2 n r hr)
    have := (hmem _).mp hin
    omega
  · obtain ⟨hnot, hr⟩ := hback hr
    obtain ⟨e', he', hrange⟩ := h.hidden q r hq hr
    rcases List.mem_cons.mp he' with rfl | he'
    · exact absurd ((hmem q).mpr hrange) hnot
    · exact ⟨e', he', hrange⟩
  · rcases h.kept p hp x hx with hx' | hfloor
    · have hbelow := h.below p hp x hx
      refine .inl (hkeep (fun hin => ?_) hx')
      have := (hmem _).mp hin
      omega
    · exact .inr hfloor

/-- **The first batch in line is published.** -/
theorem publish {e : QueuedBatch} (h : Slots b published (e :: line)) (id : Nat × Nat)
    (key : Option String) :
    Slots ((b.reserveFor e.staged).publishStagedNoSeal e.staged)
      (published ++ [⟨id, key, e.staged.seqs, e.stored⟩]) line := by
  obtain ⟨hcount, hfilled⟩ := h.filled e List.mem_cons_self
  have hstart : b.headSeq + 1 ≤ e.staged.start := h.order.1
  have hindex : ((b.reserveFor e.staged).publishStagedNoSeal e.staged).index = b.index := by simp
  have hhead : ((b.reserveFor e.staged).publishStagedNoSeal e.staged).headSeq =
      if e.staged.count = 0 then b.headSeq else e.staged.start + e.staged.count - 1 := by
    unfold publishStagedNoSeal StagedAppend.publishHead
    split
    · exact reserveFor_headSeq b e.staged
    · rfl
  have hsame : ((b.reserveFor e.staged).publishStagedNoSeal e.staged).floors = b.floors ∧
      ((b.reserveFor e.staged).publishStagedNoSeal e.staged).seqBase = b.seqBase := by
    unfold publishStagedNoSeal reserveFor
    split <;> split <;> exact ⟨rfl, rfl⟩
  generalize (b.reserveFor e.staged).publishStagedNoSeal e.staged = b' at hindex hhead hsame
  have hle : b.headSeq ≤ b'.headSeq := by
    rw [hhead]
    split <;> omega
  -- the slots of the batch are those between the old head and the new one that are live
  have hnew : ∀ x, x ∈ (⟨id, key, e.staged.seqs, e.stored⟩ : Batch).slots ↔
      ∃ n, x.1 = e.staged.start + n ∧ e.stored[n]? = some x.2 := fun x => mem_zip_range'_iff hcount
  refine ⟨?_, fun e' he' => ?_, fun q r hq hr => ?_, fun q r hq hr => ?_, fun p hp x hx => ?_,
    fun p hp x hx => ?_⟩
  · rw [hindex]
    refine h.order.2.mono ?_
    rw [hhead]
    split <;> omega
  · rw [hindex]
    exact h.filled e' (List.mem_cons_of_mem _ he')
  · rw [hindex] at hr
    by_cases hold : q ≤ b.headSeq
    · obtain ⟨p, hp, hx⟩ := h.visible q r hold hr
      exact ⟨p, List.mem_append_left _ hp, hx⟩
    · refine ⟨_, List.mem_append_right _ (List.mem_singleton_self _), (hnew (q, r)).mpr ?_⟩
      rw [hhead] at hq
      split at hq
      · omega
      · obtain ⟨e', he', hrange⟩ := h.hidden q r (not_le.mp hold) hr
        have hin : e.staged.start ≤ q := by
          rcases List.mem_cons.mp he' with rfl | he'
          · exact hrange.1
          · have := h.order.2.le_start he'
            omega
        have hlen : q - e.staged.start < e.stored.length := by omega
        refine ⟨q - e.staged.start, by simp only; omega, ?_⟩
        have hget : e.stored[q - e.staged.start]? = some e.stored[q - e.staged.start] :=
          List.getElem?_eq_getElem hlen
        have hlive := hfilled _ _ hget
        rw [show e.staged.start + (q - e.staged.start) = q by omega, hr] at hlive
        rw [hget, ← hlive]
  · rw [hindex] at hr
    obtain ⟨e', he', hrange⟩ := h.hidden q r (hle.trans_lt hq) hr
    rcases List.mem_cons.mp he' with rfl | he'
    · rw [hhead] at hq
      split at hq <;> omega
    · exact ⟨e', he', hrange⟩
  · rcases List.mem_append.mp hp with hp | hp
    · exact (h.below p hp x hx).trans hle
    · cases List.mem_singleton.mp hp
      obtain ⟨n, hn, hr⟩ := (hnew x).mp hx
      have hlt := (List.getElem?_eq_some_iff.mp hr).1
      rw [hhead]
      split <;> omega
  · rw [hindex, hsame.1, hsame.2]
    rcases List.mem_append.mp hp with hp | hp
    · refine (h.kept p hp x hx).imp_right fun hlt => Nat.lt_of_lt_of_le hlt ?_
      exact (Floors.Le.refl b.floors).earliestSeq hle
    · cases List.mem_singleton.mp hp
      obtain ⟨n, hn, hr⟩ := (hnew x).mp hx
      rw [hn]
      exact .inl (hfilled n x.2 hr)

end Slots

/-! ## The line and the writes -/

/-- The head a step of a retention pass has read. -/
def FloorInstr.seenHead : FloorInstr → Nat
  | .plan _ head _ | .harden _ _ head | .commit _ _ head | .reclaim head => head
  | _ => 0

variable {f : FloorState} {t : Nat} {ok : Bool} {i : FloorInstr}
  {fo : Outcome FloorState FloorInstr}

/-- **One step of a retention pass.** -/
theorem trims_of_sem (hi : i.retains = true) (hseen : i.seenHead ≤ f.topic.headSeq)
    (hsem : FloorState.sem f t ok i = some fo) : Trims f.topic fo.shared.topic := by
  have hrefl : ∀ b : TopicState, Trims b b := fun b =>
    ⟨rfl, rfl, rfl, .refl _, fun _ _ h => h, fun _ _ h => .inl h⟩
  have hstep := topicStep_of_sem hsem
  generalize fo.shared.topic = b at hstep
  cases hstep with
  | same => exact hrefl _
  | commit plan =>
    have hsteady := steady_commitFloors f.topic plan
    refine ⟨hsteady.headSeq, hsteady.tail, hsteady.seqBase.symm,
      floors_le_commitFloors f.topic plan, fun q r hr => ?_, fun q r hr => .inl ?_⟩
    · rw [commitFloors_index] at hr
      exact hr
    · rw [commitFloors_index]
      exact hr
  | reclaim head =>
    have hsteady := steady_reclaimFront f.topic head
    refine ⟨hsteady.headSeq, hsteady.tail, hsteady.seqBase.symm, .refl _,
      shrinks_reclaimFront f.topic head, fun q r hr => ?_⟩
    rw [live_reclaimFront]
    split
    · -- what the pass took away lies below the floors for the head of now, too
      rename_i hlt
      refine .inr (Nat.lt_of_lt_of_le hlt ?_)
      exact (Floors.Le.refl f.topic.floors).earliestSeq hseen
    · exact .inl hr
  | stage | publish | select | removeSeqs => cases hi

theorem seenHead_of_goes {i j : FloorInstr} (hi : i.retains = true)
    (hseen : i.seenHead ≤ f.topic.headSeq) (h : FloorState.Goes f i [j]) :
    j.seenHead ≤ f.topic.headSeq := by
  cases h with
  | plan => exact le_rfl
  | harden | commit | reclaim | hardened | committed => exact hseen
  | selected => cases hi

theorem gate_of_retains (hi : i.retains = true) (hlocked : f.locked ≠ some t)
    (hsem : FloorState.sem f t ok i = some fo) :
    fo.shared.turn = f.turn ∧ fo.shared.nextTicket = f.nextTicket ∧ fo.shared.locked = f.locked := by
  cases i with
  | readHead | plan | commit | reclaim =>
    cases hsem
    exact ⟨rfl, rfl, rfl⟩
  | harden plan byBytes head =>
    simp only [sem] at hsem
    split at hsem <;> cases hsem
    all_goals exact ⟨rfl, rfl, rfl⟩
  | _ => cases hi

def KeyedInstr.enqueued? : KeyedInstr → Option StagedAppend
  | .enqueue _ g => some g
  | _ => none

namespace KeyedState

/-- The line at the publish gate; `opened` is the batch that is staged and has no ticket yet. -/
structure Gate (line : List QueuedBatch) (opened : Option QueuedBatch) (s : KeyedState) : Prop where
  tickets : s.floor.nextTicket = s.floor.turn + line.length
  slots : Slots s.floor.topic s.published (line ++ opened.toList)
  locked : ∀ e ∈ opened, s.floor.locked = some e.thread ∧
    s.floor.topic.index.tail = e.staged.start + e.staged.count

def Lines (line : List QueuedBatch) (opened : Option QueuedBatch) (s : KeyedState) (t : Nat) :
    List KeyedInstr → Prop
  | .stage _ :: _ => s.floor.locked = some t ∧ opened = none
  | .enqueue w g :: _ => s.floor.locked = some t ∧ opened = some ⟨t, g, w.call.stored⟩
  | .commit w g ticket :: _ => s.floor.locked ≠ some t ∧
    ∃ n, ticket = s.floor.turn + n ∧ (line)[n]? = some ⟨t, g, w.call.stored⟩
  | .publish w g :: _ => s.floor.locked ≠ some t ∧ (line)[0]? = some ⟨t, g, w.call.stored⟩
  | .retain _ _ i :: _ => s.floor.locked ≠ some t ∧ i.seenHead ≤ s.floor.topic.headSeq
  | _ => s.floor.locked ≠ some t

variable {line line' : List QueuedBatch} {opened opened' : Option QueuedBatch} {s s' : KeyedState}
  {t u : Nat}

/-- What the other threads see of a step of thread `t`. -/
structure Ahead (t : Nat) (line line' : List QueuedBatch) (opened opened' : Option QueuedBatch)
    (s s' : KeyedState) : Prop where
  locked : ∀ u, u ≠ t → (s'.floor.locked = some u ↔ s.floor.locked = some u)
  opened : ∀ u, u ≠ t → s.floor.locked = some u → opened' = opened
  place : ∀ n e, (line)[n]? = some e → e.thread ≠ t →
    ∃ m, s.floor.turn + n = s'.floor.turn + m ∧ (line')[m]? = some e ∧ m ≤ n
  head : s.floor.topic.headSeq ≤ s'.floor.topic.headSeq

theorem Ahead.lines (h : Ahead t line line' opened opened' s s') (hu : u ≠ t) {code : List KeyedInstr}
    (hcode : Lines line opened s u code) : Lines line' opened' s' u code := by
  have hfree : s.floor.locked ≠ some u → s'.floor.locked ≠ some u := fun hne heq =>
    hne ((h.locked u hu).mp heq)
  cases code with
  | nil => exact hfree hcode
  | cons i rest =>
    cases i with
    | stage | enqueue =>
      exact ⟨(h.locked u hu).mpr hcode.1, (h.opened u hu hcode.1).trans hcode.2⟩
    | commit w g ticket =>
      obtain ⟨hlocked, n, rfl, hline⟩ := hcode
      obtain ⟨m, hm, hline', -⟩ := h.place n _ hline hu
      exact ⟨hfree hlocked, m, hm, hline'⟩
    | publish w g =>
      obtain ⟨m, -, hline', hle⟩ := h.place 0 _ hcode.2 hu
      obtain rfl : m = 0 := Nat.le_zero.mp hle
      exact ⟨hfree hcode.1, hline'⟩
    | retain w done i => exact ⟨hfree hcode.1, hcode.2.trans h.head⟩
    | _ => exact hfree hcode

theorem Ahead.of_same (t : Nat) (line : List QueuedBatch) (opened : Option QueuedBatch)
    (hlocked : s'.floor.locked = s.floor.locked) (hturn : s'.floor.turn = s.floor.turn)
    (hhead : s.floor.topic.headSeq ≤ s'.floor.topic.headSeq) :
    Ahead t line line opened opened s s' :=
  ⟨fun _ _ => by rw [hlocked], fun _ _ _ => rfl, fun n e he _ => ⟨n, by rw [hturn], he, le_rfl⟩, hhead⟩

theorem Ahead.of_tail {e : QueuedBatch} (he : e.thread = t) (opened : Option QueuedBatch)
    (hlocked : s'.floor.locked = s.floor.locked) (hturn : s'.floor.turn = s.floor.turn + 1)
    (hhead : s.floor.topic.headSeq ≤ s'.floor.topic.headSeq) :
    Ahead t (e :: line) line opened opened s s' := by
  refine ⟨fun _ _ => by rw [hlocked], fun _ _ _ => rfl, fun n e' he' hne => ?_, hhead⟩
  cases n with
  | zero =>
    cases he'
    exact absurd he hne
  | succ m => exact ⟨m, by rw [hturn]; omega, he', Nat.le_succ m⟩

/-- **Condition**: the watermark behind a publish does not fail, and the log refuses a batch only
while the front of the deque is where it was when the batch was staged. -/
def Contained (s : KeyedState) (t : Nat) (ok : Bool) (i : KeyedInstr) : Prop :=
  Hardens s t ok i ∧
    ∀ g ∈ i.enqueued?, ok = true ∨ s.floor.topic.index.records.length = g.preLen + g.count

instance (s : KeyedState) (t : Nat) (ok : Bool) (i : KeyedInstr) : Decidable (Contained s t ok i) :=
  inferInstanceAs (Decidable (_ ∧ _))

def GoesOn (t : Nat) (line : List QueuedBatch) (opened : Option QueuedBatch) (s : KeyedState)
    (o : Outcome KeyedState KeyedInstr) : Prop :=
  ∃ line' opened', Gate line' opened' o.shared ∧ Ahead t line line' opened opened' s o.shared ∧
    Lines line' opened' o.shared t (o.code [])

variable {w : Keyed} {i : KeyedInstr} {ok : Bool} {g : StagedAppend}

theorem lines_leave {r : WriteReply} (h : s.floor.locked ≠ some t) :
    Lines line opened s t [leave w r] := by
  unfold leave
  split <;> exact h

section

variable (h : Gate line opened s)

include h

theorem Gate.aside (hfloor : s'.floor = s.floor) (hpublished : s'.published = s.published)
    (hi : Lines line opened s' t [i]) : GoesOn t line opened s (.next s' [i]) := by
  refine ⟨line, opened, ⟨?_, ?_, ?_⟩, .of_same t line opened ?_ ?_ ?_, hi⟩
  · rw [shared_next, hfloor]
    exact h.tickets
  · rw [shared_next, hfloor, hpublished]
    exact h.slots
  · rw [shared_next, hfloor]
    exact h.locked
  all_goals rw [shared_next, hfloor]

theorem Gate.retain {done : Option (List Nat × Nat)} {i : FloorInstr}
    {fo : Outcome FloorState FloorInstr} (hi : i.retains = true) (hlocked : s.floor.locked ≠ some t)
    (hseen : i.seenHead ≤ s.floor.topic.headSeq) (hsem : FloorState.sem s.floor t ok i = some fo) :
    GoesOn t line opened s (s.retainNext w done fo) := by
  have htrims := trims_of_sem hi hseen hsem
  obtain ⟨hturn, hnext, hlock⟩ := gate_of_retains hi hlocked hsem
  have hgate : ∀ s', s'.floor = fo.shared → s'.published = s.published → Gate line opened s' := by
    intro s' hfloor hpublished
    refine ⟨?_, ?_, ?_⟩
    · rw [hfloor, hnext, hturn]
      exact h.tickets
    · rw [hfloor, hpublished]
      exact h.slots.trim htrims
    · rw [hfloor, hlock, htrims.tail]
      exact h.locked
  have hahead : ∀ s', s'.floor = fo.shared → Ahead t line line opened opened s s' := by
    intro s' hfloor
    refine .of_same t line opened ?_ ?_ ?_
    · rw [hfloor, hlock]
    · rw [hfloor, hturn]
    · rw [hfloor, htrims.head]
  have hfree : fo.shared.locked ≠ some t := by rw [hlock]; exact hlocked
  rcases retains_of_sem hi hsem with ⟨f', j, rfl, hj⟩ | ⟨f', rfl⟩ | ⟨-, -, f', rfl⟩
  · refine ⟨line, opened, hgate _ rfl rfl, hahead _ rfl, hfree, ?_⟩
    have hhead : f'.topic.headSeq = s.floor.topic.headSeq := htrims.head
    change j.seenHead ≤ f'.topic.headSeq
    rw [hhead]
    exact seenHead_of_goes hi hseen (goes_of_sem hsem)
  · refine ⟨line, opened, hgate _ rfl rfl, hahead _ rfl, ?_⟩
    cases done <;> exact hfree
  · exact ⟨line, opened, hgate _ rfl rfl, hahead _ rfl, lines_leave hfree⟩

theorem Gate.rollback (hlocked : s.floor.locked ≠ some t)
    (hfirst : (line)[0]? = some ⟨t, g, w.call.stored⟩) :
    GoesOn t line opened s (s.rollback w g) := by
  cases line with
  | nil => cases hfirst
  | cons e line =>
    obtain rfl : e = ⟨t, g, w.call.stored⟩ := some.inj hfirst
    refine ⟨line, opened, ⟨?_, h.slots.rollback, fun e he => ?_⟩, ?_, lines_leave hlocked⟩
    · have htickets := h.tickets
      simp only [KeyedState.rollback, shared_next, List.length_cons] at htickets ⊢
      omega
    · obtain ⟨hlock, htail⟩ := h.locked e he
      refine ⟨hlock, ?_⟩
      exact (tail_markAll ..).trans htail
    · apply Ahead.of_tail
      · rfl
      · rfl
      · rfl
      · exact le_rfl

theorem Gate.publish (hlocked : s.floor.locked ≠ some t)
    (hfirst : (line)[0]? = some ⟨t, g, w.call.stored⟩) :
    GoesOn t line opened s (.next (s.publishBatch w g)
      [pass w (some (g.seqs, (s.publishBatch w g).floor.topic.headSeq))]) := by
  cases line with
  | nil => cases hfirst
  | cons e line =>
    obtain rfl : e = ⟨t, g, w.call.stored⟩ := some.inj hfirst
    have hslots := h.slots.publish w.id w.call.key
    refine ⟨line, opened, ⟨?_, hslots, fun e he => ?_⟩, ?_, hlocked, Nat.zero_le _⟩
    · have htickets := h.tickets
      simp only [publishBatch, shared_next, List.length_cons] at htickets ⊢
      omega
    · obtain ⟨hlock, htail⟩ := h.locked e he
      refine ⟨hlock, ?_⟩
      simpa [publishBatch] using htail
    · apply Ahead.of_tail
      · rfl
      · rfl
      · rfl
      have hstart : s.floor.topic.headSeq + 1 ≤ g.start := h.slots.order.1
      change _ ≤ ((s.floor.topic.reserveFor g).publishStagedNoSeal g).headSeq
      unfold publishStagedNoSeal StagedAppend.publishHead
      split
      · rw [reserveFor_headSeq]
      · simp only
        omega

/-- **One step.** -/
theorem Gate.step {o : Outcome KeyedState KeyedInstr} (hsound : i.Sound)
    (hlines : Lines line opened s t [i]) (hcontained : Contained s t ok i)
    (hsem : sem s t ok i = some o) : GoesOn t line opened s o := by
  cases i with
  | validate c =>
    cases hsem
    refine h.aside rfl rfl ?_
    split
    · split
      · exact hlines
      · exact ⟨hlines, Nat.zero_le _⟩
    · exact hlines
  | gateFor | releaseGate =>
    cases hsem
    exact h.aside rfl rfl hlines
  | lockGate w =>
    obtain ⟨G, -, rfl⟩ := map_eq_some_iff.mp hsem
    exact h.aside rfl rfl hlines
  | checkDedupe w =>
    cases hsem
    refine h.aside rfl rfl ?_
    split
    · exact hlines
    · exact ⟨hlines, Nat.zero_le _⟩
  | retain w done i =>
    obtain ⟨fo, hfo, rfl⟩ := map_eq_some_iff.mp hsem
    exact h.retain hsound hlines.1 hlines.2 hfo
  | admission w =>
    cases hsem
    refine h.aside rfl rfl ?_
    split
    · exact lines_leave hlines
    · exact hlines
  | reserveQuota w =>
    cases hsem
    refine h.aside rfl rfl ?_
    split
    · exact hlines
    · exact lines_leave hlines
  | lock w =>
    simp only [sem] at hsem
    split at hsem <;> cases hsem
    rename_i hfree
    -- nobody has a batch without a ticket
    have hnone : opened = none := by
      cases opened with
      | none => rfl
      | some e =>
        have hlock := (h.locked e rfl).1
        rw [hfree] at hlock
        cases hlock
    subst hnone
    refine ⟨line, none, ⟨h.tickets, h.slots, fun e he => (by cases he)⟩, ⟨fun u hu => ?_,
      fun _ _ _ => rfl, fun n e he _ => ⟨n, rfl, he, le_refl _⟩, le_refl _⟩, rfl, rfl⟩
    simp only [shared_next, hfree, some.injEq, reduceCtorEq, iff_false]
    exact Ne.symm hu
  | stage w =>
    cases hsem
    obtain ⟨hlocked, rfl⟩ := hlines
    have hslots := h.slots.stage t w.call.fresh
    rw [toList_none, List.append_nil] at hslots
    refine ⟨line, some ⟨t, (s.floor.topic.stageAppend w.call.stored).2, w.call.stored⟩,
      ⟨h.tickets, hslots, fun e he => ?_⟩, ⟨fun _ _ => Iff.rfl, fun u hu hlock => ?_,
        fun n e he _ => ⟨n, rfl, he, le_rfl⟩, le_rfl⟩, hlocked, rfl⟩
    · cases he
      exact ⟨hlocked, tail_pushAll ..⟩
    · rw [hlocked] at hlock
      exact absurd (some.inj hlock).symm hu
  | enqueue w g =>
    obtain ⟨hlocked, rfl⟩ := hlines
    obtain ⟨-, htail⟩ := h.locked _ rfl
    have hslots := h.slots
    rw [toList_some] at hslots
    have hother : ∀ u, u ≠ t → (none = some u ↔ s.floor.locked = some u) := fun u hu => by
      rw [hlocked]
      simp only [some.injEq, reduceCtorEq, false_iff]
      exact Ne.symm hu
    have hmine : ∀ u, u ≠ t → s.floor.locked = some u → (none : Option QueuedBatch) =
        some ⟨t, g, w.call.stored⟩ := fun u hu hlock => by
      rw [hlocked] at hlock
      exact absurd (some.inj hlock).symm hu
    simp only [sem] at hsem
    split at hsem <;> cases hsem
    · refine ⟨line ++ [⟨t, g, w.call.stored⟩], none, ⟨?_, ?_, fun e he => (by cases he)⟩,
        ⟨hother, hmine, fun n e he _ => ⟨n, rfl, ?_, le_refl _⟩, le_refl _⟩, ?_, line.length, ?_, ?_⟩
      · have htickets := h.tickets
        simp only [shared_next, List.length_append, List.length_singleton]
        omega
      · rw [toList_none, List.append_nil]
        exact hslots
      · rw [List.getElem?_append_left (List.getElem?_eq_some_iff.mp he).1]
        exact he
      · simp
      · exact h.tickets
      · simp
    · rename_i hfail
      have hfront : s.floor.topic.index.records.length = g.preLen + g.count := by
        rcases hcontained.2 g rfl with hok | hfront
        · rw [hok] at hfail
          simp at hfail
        · exact hfront
      refine ⟨line, none, ⟨h.tickets, ?_, fun e he => (by cases he)⟩,
        ⟨hother, hmine, fun n e he _ => ⟨n, rfl, he, le_refl _⟩, ?_⟩, lines_leave (by simp)⟩
      · rw [toList_none, List.append_nil]
        exact hslots.truncate htail hfront
      · exact (rollbackStaged_headSeq ..).ge
  | commit w g ticket =>
    obtain ⟨hlocked, n, rfl, hline⟩ := hlines
    simp only [sem] at hsem
    split at hsem <;> cases hsem
    rename_i hturn
    obtain rfl : n = 0 := by omega
    split
    · exact h.aside rfl rfl ⟨hlocked, hline⟩
    · exact h.rollback hlocked hline
  | publish w g =>
    cases hsem
    split
    · exact h.rollback hlines.1 hlines.2
    · exact h.publish hlines.1 hlines.2
  | record w seqs head =>
    cases hsem
    exact h.aside rfl rfl (lines_leave hlines)
  | unlockGate w r =>
    cases hsem
    refine h.aside rfl rfl ?_
    split <;> exact hlines
  | finish w r =>
    cases hsem
    exact ⟨line, opened, ⟨h.tickets, h.slots, h.locked⟩, .of_same t line opened rfl rfl le_rfl, hlines⟩

end

/-! ## Whole runs -/

section Run

variable {lo : Int} {spec : TopicSpec} {as : List (ThreadAction KeyedCall Bool)}

def Sealed (lo : Int) (window : Nat) (s : Threads KeyedState KeyedInstr) : Prop :=
  Consistent lo window s ∧ ∃ line opened, Threads.Holds (Gate line opened) (Lines line opened) s

theorem Stands.sound {window : Nat} {i : KeyedInstr} {rest : List KeyedInstr}
    (h : Stands lo window s t (i :: rest)) : i.Sound := by
  cases i with
  | validate => trivial
  | _ => exact h.2.1

/-- **One step of a run.** -/
theorem Sealed.step {window : Nat} {s s' : Threads KeyedState KeyedInstr}
    {a : ThreadAction KeyedCall Bool} (h : Sealed lo window s) (hwindow : window < 2 ^ 63)
    (ha : Threads.OnInput (fun c => Within lo window c.now) Contained s a)
    (hstep : KeyedState.step s a = some s') : Sealed lo window s' := by
  obtain ⟨hconsistent, line, opened, hline⟩ := h
  have hhardens : Threads.OnInput (fun c => Within lo window c.now) Hardens s a := by
    cases a with
    | start t c => exact ha
    | run t ok => exact fun i hi => (ha i hi).1
  refine ⟨Consistent.step hconsistent hwindow hhardens hstep, ?_⟩
  rcases Threads.step_cases _ _ hstep with
    ⟨t, c, rfl, hcode, rfl⟩ | ⟨t, ok, i, rest, o, rfl, hcode, hsem, rfl⟩
  · have hfree := hline.code t
    rw [hcode] at hfree
    exact ⟨line, opened, hline.start hfree⟩
  · have hstands := hconsistent.code t
    have hmine := hline.code t
    rw [hcode] at hstands hmine
    obtain rfl : rest = [] := hstands.1
    obtain ⟨line', opened', hgate, hahead, hown⟩ :=
      hline.shared.step hstands.sound hmine (ha i (by rw [hcode]; rfl)) hsem
    exact ⟨line', opened', hline.run hgate hown fun u code hu hc => hahead.lines hu hc⟩

theorem sealed_start (lo : Int) (spec : TopicSpec) :
    Sealed lo spec.config.idempotencyWindowMs (start spec) := by
  have hempty : ∀ q, (start spec).shared.floor.topic.index.live q = none := fun q => by
    simp [start, init, TopicSpec.fresh, TopicState.new, live]
  refine ⟨consistent_start lo spec, [], none, ⟨rfl, ⟨le_rfl, fun e he => ?_, fun q r _ hr => ?_,
    fun q r _ hr => ?_, fun p hp => ?_, fun p hp => ?_⟩, fun e he => ?_⟩, fun t => ?_⟩
  · cases he
  · rw [hempty] at hr
    cases hr
  · rw [hempty] at hr
    cases hr
  · cases hp
  · cases hp
  · cases he
  · exact some_ne_none t ∘ Eq.symm

/-- The commit of a write fails, and a retry under the same key succeeds. -/
def retried : List (ThreadAction KeyedCall Bool) :=
  [.start 1 (keyedWrite "k")] ++ runs 1 10 ++ [.run 1 false] ++ runs 1 2 ++
    [.start 1 (keyedWrite "k")] ++ runs 1 17

/-- A topic that keeps two bytes, and a batch that fills it. -/
def twoBytes : TopicSpec := ⟨"jobs", 1, { capBytes := 2, durable := true }, 0⟩

def filling : KeyedCall := ⟨none, [.plain none, .plain none], 0, by simp [StoredRecord.plain]⟩

end Run

end KeyedState

end Topics
