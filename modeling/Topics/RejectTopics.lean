import Mathlib.Algebra.Order.BigOperators.Group.List
import Topics.Accounts
import Topics.Paging
import Topics.TopicSteps

/-!
# Topics that reject writes

With `discard: reject` a write that would exceed a cap is refused, so no live record should ever
be evicted.  Admission compares the caps with the counters it reads before the append lock is
taken; eviction compares the record cap with the distance from the head, holes included.
-/

namespace Topics

open Lib TopicState TopicIndex List Option

variable {b : TopicState}

/-- The counters have the slots up to the head, and behind them lie the batches of the line. -/
def Accounted (line : List (Nat × Option StagedAppend)) (b : TopicState) : Prop :=
  ∃ batches, Balanced batches b ∧ batches.map Prod.fst = line.filterMap Prod.snd

theorem slotBytes_le_of_sublist {rs rs' : List StoredRecord} (h : rs <+ rs') :
    slotBytes rs ≤ slotBytes rs' :=
  (h.map StoredRecord.bytes).sum_le_sum (forall_mem_map.mpr fun _ _ => Nat.zero_le _)

theorem slotBytes_liveSlots_le (ix : TopicIndex) : slotBytes ix.liveSlots ≤ slotBytes ix.records :=
  slotBytes_le_of_sublist filter_sublist

theorem slotBytes_set_le {rs : List StoredRecord} {i : Nat} {r : StoredRecord} (hr : r.bytes = 0) :
    slotBytes (rs.set i r) ≤ slotBytes rs := by
  induction rs generalizing i with
  | nil => exact le_rfl
  | cons x rs ih =>
    cases i with
    | zero => simp [slotBytes, hr]
    | succ i => simpa [slotBytes] using ih (i := i)

theorem slotBytes_markAll_le (ix : TopicIndex) (seqs : List Nat) :
    slotBytes (markAll ix seqs).1.records ≤ slotBytes ix.records := by
  refine markAll_induct (P := fun ix' => slotBytes ix'.records ≤ slotBytes ix.records) seqs le_rfl
    fun ix' q h => ?_
  unfold markDeleted
  split
  · exact h
  · split
    · exact h
    · exact (slotBytes_set_le rfl).trans h

namespace Accounted

variable {line : List (Nat × Option StagedAppend)} (h : Accounted line b)

include h

theorem head : b.headSeq < b.index.tail := by
  obtain ⟨batches, hb, -⟩ := h
  exact hb.head

theorem bytes_le : b.bytesRetained ≤ slotBytes b.index.records := by
  obtain ⟨batches, hb, -⟩ := h
  rw [hb.bytes]
  exact slotBytes_le_of_sublist (filter_sublist.trans (take_sublist ..))

end Accounted

/-! ## Room below the caps -/

/-- A floor that no live record lies at or below, nor any record to come. -/
def Clears (ix : TopicIndex) (floor : Nat) : Prop :=
  floor < ix.tail ∧ ∀ q r, ix.live q = some r → floor < q

namespace Clears

variable {floor floor' : Nat} {ix : TopicIndex}

theorem mono {b b' : TopicState} (h : Clears b.index floor) (hon : FloorState.Onward b b') :
    Clears b'.index floor := by
  refine ⟨h.1.trans_le hon.tail, fun q r hq => ?_⟩
  rcases hon.live q r hq with hq | hq
  · exact h.2 q r hq
  · exact h.1.trans_le hq

theorem of_le (h : Clears ix floor) (hle : floor' ≤ floor) :
    Clears ix floor' :=
  ⟨hle.trans_lt h.1, fun q r hq => hle.trans_lt (h.2 q r hq)⟩

theorem max (h : Clears ix floor) (h' : Clears ix floor') :
    Clears ix (Max.max floor floor') :=
  ⟨max_lt h.1 h'.1, fun q r hq => max_lt (h.2 q r hq) (h'.2 q r hq)⟩

end Clears

/-- The state of a topic that has lost no live record: all of them lie within the record cap below
the tail, and the slots within the byte cap. -/
structure Roomy (cfg : TopicConfig) (b : TopicState) : Prop where
  config : b.config = cfg
  seqBase : b.seqBase ≤ b.index.baseSeq
  recent : 0 < cfg.capRecords →
    ∀ q r, b.index.live q = some r → b.index.tail ≤ q + cfg.capRecords
  bytes : 0 < cfg.capBytes → slotBytes b.index.records ≤ cfg.capBytes
  floors : Clears b.index b.floors.top
  deleted : Clears b.index (b.index.deleteBelow - 1)

namespace Roomy

variable {cfg : TopicConfig} {b : TopicState}

section

variable (h : Roomy cfg b)

include h

theorem earliestSeq_le {q : Nat} {r : StoredRecord} (hq : b.index.live q = some r) (head : Nat) :
    b.floors.earliestSeq b.seqBase head ≤ q :=
  Floors.earliestSeq_le_of_top_lt
    (h.seqBase.trans (base_le_of_get (live_eq_some.mp hq).1))
    (h.floors.2 q r hq) head

theorem planned {line : List (Nat × Option StagedAppend)} (hacc : Accounted line b)
    (httl : cfg.ttlMs = 0) {head : Nat} (hhead : head ≤ b.headSeq) (now : Int) :
    Clears b.index ({ b with headSeq := head }.planRetention now).evictFloor ∧
      Clears b.index ({ b with headSeq := head }.planRetention now).expiryFloor := by
  have hevict : b.floors.evictFloor ≤ b.floors.top := by unfold Floors.top; omega
  have hexpiry : b.floors.expiryFloor ≤ b.floors.top := by unfold Floors.top; omega
  have hcap : Clears b.index ({ b with headSeq := head } : TopicState).capFloor := by
    unfold capFloor
    simp only [h.config]
    split
    · rename_i hpos
      have htail := hacc.head
      refine ⟨by omega, fun q r hq => ?_⟩
      have := h.recent hpos q r hq
      have := h.floors.2 q r hq
      omega
    · exact h.floors.of_le (Nat.zero_le _)
  have hbytes : b.config.capBytes > 0 → b.bytesRetained ≤ b.config.capBytes := fun hpos => by
    rw [h.config] at hpos ⊢
    exact hacc.bytes_le.trans (h.bytes hpos)
  constructor
  · rw [planRetention_evictFloor]
    unfold byteFloor
    rw [if_neg fun hover => (hbytes hover.1).not_gt hover.2, max_self]
    exact (h.floors.of_le hevict).max hcap
  · rw [planRetention_expiryFloor]
    unfold ttlFloor
    rw [if_neg (by simp [h.config, httl]), max_self]
    exact h.floors.of_le hexpiry

theorem commitFloors {plan : TopicState.RetentionAdvance} (hevict : Clears b.index plan.evictFloor)
    (hexpiry : Clears b.index plan.expiryFloor) : Roomy cfg (b.commitFloors plan) := by
  unfold TopicState.commitFloors
  split
  · refine { h with floors := ?_ }
    refine ((h.floors.max hevict).max hexpiry).of_le ?_
    simp only [Floors.top]
    omega
  · exact h

theorem reclaimFront (head : Nat) : Roomy cfg (b.reclaimFront head) := by
  have hsteady := steady_reclaimFront b head
  have hon := FloorState.Onward.of_steady hsteady (shrinks_reclaimFront b head)
  refine ⟨h.config, h.seqBase.trans hsteady.base, fun hpos q r hq => ?_, fun hpos => ?_,
    h.floors.mono hon, h.deleted.mono hon⟩
  · rw [hsteady.tail]
    exact h.recent hpos q r (shrinks_reclaimFront b head q r hq)
  · refine le_trans ?_ (h.bytes hpos)
    change slotBytes (b.index.records.drop _) ≤ _
    exact slotBytes_le_of_sublist (drop_sublist ..)

theorem marks {b' : TopicState} (hsteady : b.Steady b') (hshrinks : b.Shrinks b')
    (hbytes : slotBytes b'.index.records ≤ slotBytes b.index.records)
    (hfloors : Clears b'.index b'.floors.top)
    (hdeleted : Clears b'.index (b'.index.deleteBelow - 1)) : Roomy cfg b' := by
  refine ⟨hsteady.config.trans h.config, ?_, fun hpos q r hq => ?_,
    fun hpos => hbytes.trans (h.bytes hpos), hfloors, hdeleted⟩
  · rw [hsteady.seqBase]
    exact h.seqBase.trans hsteady.base
  · rw [hsteady.tail]
    exact h.recent hpos q r (hshrinks q r hq)

theorem stage {stored : List StoredRecord}
    (hroom : 0 < cfg.capRecords → ∀ q r, b.index.live q = some r →
      b.index.tail + stored.length ≤ q + cfg.capRecords)
    (hlen : 0 < cfg.capRecords → stored.length ≤ cfg.capRecords)
    (hbytes : 0 < cfg.capBytes → slotBytes b.index.records + slotBytes stored ≤ cfg.capBytes)
    (hon : FloorState.Onward b (b.stageAppend stored).1) : Roomy cfg (b.stageAppend stored).1 := by
  have hrecords : (b.stageAppend stored).1.index.records = b.index.records ++ stored :=
    pushAll_records ..
  have htail : (b.stageAppend stored).1.index.tail = b.index.tail + stored.length :=
    tail_pushAll ..
  refine ⟨h.config, ?_, fun hpos q r hq => ?_, fun hpos => ?_, h.floors.mono hon, ?_⟩
  · change b.seqBase ≤ (b.index.pushAll stored).baseSeq
    rw [pushAll_baseSeq]
    exact h.seqBase
  · rw [htail]
    rcases hon.live q r hq with hq | hq
    · exact hroom hpos q r hq
    · have := hlen hpos
      omega
  · rw [hrecords, slotBytes_append]
    exact hbytes hpos
  · change Clears _ ((b.index.pushAll stored).deleteBelow - 1)
    rw [pushAll_deleteBelow]
    exact h.deleted.mono hon

theorem publish (g : StagedAppend) : Roomy cfg ((b.reserveFor g).publishStagedNoSeal g) := by
  unfold publishStagedNoSeal reserveFor
  split <;> split <;>
    exact { h with }

end

end Roomy

theorem Roomy.length_liveSlots_le {cfg : TopicConfig} (h : Roomy cfg b)
    (hpos : 0 < cfg.capRecords) : b.index.liveSlots.length ≤ cfg.capRecords := by
  have hfront : (b.index.records.take (b.index.records.length - cfg.capRecords)).filter
      (fun r => !r.deleted) = [] := by
    refine filter_eq_nil_iff.mpr fun r hr hlive => ?_
    obtain ⟨k, hk, hget⟩ := mem_take_iff_getElem.mp hr
    have hq : b.index.live (b.index.baseSeq + k) = some r := by
      refine live_eq_some.mpr ⟨?_, by simpa using hlive⟩
      rw [← getElem?_records, ← hget]
      exact getElem?_eq_getElem _
    have := h.recent hpos _ r hq
    unfold TopicIndex.tail at this
    omega
  unfold liveSlots
  rw [← take_append_drop (b.index.records.length - cfg.capRecords) b.index.records,
    filter_append, hfront, nil_append]
  refine (length_filter_le _ _).trans ?_
  rw [length_drop]
  omega

/-! ### Deletes -/

namespace Roomy

variable {cfg : TopicConfig} {b : TopicState} {line : List (Nat × Option StagedAppend)}

theorem earliestSeq_le_live (h : Roomy cfg b) {q : Nat} {r : StoredRecord}
    (hq : b.index.live q = some r) : b.earliestSeq ≤ q := by
  have hbase := base_le_of_get (live_eq_some.mp hq).1
  have hfloor := h.earliestSeq_le hq b.headSeq
  unfold earliestSeq
  omega

theorem clears_below (h : Roomy cfg b) {s bound : Nat} (hbound : bound ≤ b.index.tail) :
    Clears (b.deleteSelected (some s) none (some bound)).index (min s bound - 1) := by
  refine ⟨?_, fun q r hq => ?_⟩
  · rw [(steady_deleteSelected b (some s) none (some bound)).tail]
    have := h.floors.1
    omega
  · rw [live_deleteSelected] at hq
    obtain ⟨hmem, hq⟩ := ite_none_left_eq_some.mp hq
    by_contra hlt
    have htop := h.floors.2 q r hq
    have hbase := base_le_of_get (live_eq_some.mp hq).1
    have hfloor := h.earliestSeq_le_live hq
    refine hmem (mem_filter.mpr ⟨?_, ?_⟩)
    · rw [mem_range'_1, getD_some, deleteBound]
      omega
    · rw [hq]
      rfl

theorem select (h : Roomy cfg b) (hacc : Accounted line b) (beforeSeq : Option Nat)
    (match_ : Option Filter) {bound : Nat} (hbound : bound ≤ b.headSeq + 1) :
    Roomy cfg (b.deleteSelected beforeSeq match_ (some bound)) := by
  have hsteady := steady_deleteSelected b beforeSeq match_ (some bound)
  have hshrinks := shrinks_deleteSelected b beforeSeq match_ (some bound)
  have hon := FloorState.Onward.of_steady hsteady hshrinks
  have hhead := hacc.head
  have hdeleted : Clears (b.deleteSelected beforeSeq match_ (some bound)).index
      ((b.deleteSelected beforeSeq match_ (some bound)).index.deleteBelow - 1) := by
    have hold := h.deleted.mono hon
    cases match_ with
    | some f =>
      simp only [deleteSelected, markAll_deleteBelow] at hold ⊢
      exact hold
    | none =>
      cases beforeSeq with
      | none =>
        simp only [deleteSelected, markAll_deleteBelow] at hold ⊢
        exact hold
      | some s =>
        -- the watermark rises to the bound of the prefix
        have hpre := @clears_below cfg b h s bound (by omega)
        refine (hold.max hpre).of_le ?_
        simp only [deleteSelected, markAll_deleteBelow, getD_some]
        omega
  refine h.marks hsteady hshrinks (slotBytes_markAll_le ..) ?_ hdeleted
  refine ((h.floors.mono hon).max hdeleted).of_le ?_
  simp only [deleteSelected, Floors.top]
  omega

theorem removeSeqs (h : Roomy cfg b) (seqs : List Nat) : Roomy cfg (b.markSeqs seqs) := by
  have hsteady := steady_markSeqs b seqs
  have hshrinks := shrinks_markSeqs b seqs
  have hon := FloorState.Onward.of_steady hsteady hshrinks
  refine h.marks hsteady hshrinks (slotBytes_markAll_le ..) (h.floors.mono hon) ?_
  have hbelow : (b.markSeqs seqs).index.deleteBelow = b.index.deleteBelow :=
    markAll_deleteBelow b.index seqs
  rw [hbelow]
  exact h.deleted.mono hon

end Roomy

/-! ## Every interleaving -/

/-- There is room for a batch: the records from the oldest live one on to the end of the batch are
no more than the record cap, and the bytes of all slots no more than the byte cap. -/
def TopicState.Fits (b : TopicState) (stored : List StoredRecord) : Prop :=
  (0 < b.config.capRecords →
    ∀ q ∈ List.range' b.index.baseSeq b.index.records.length, (b.index.live q).isSome →
      b.index.tail + stored.length ≤ q + b.config.capRecords) ∧
  (0 < b.config.capBytes → slotBytes b.index.records + slotBytes stored ≤ b.config.capBytes)

instance (b : TopicState) (stored : List StoredRecord) : Decidable (b.Fits stored) :=
  inferInstanceAs (Decidable ((_ → _) ∧ (_ → _)))

namespace FloorState

/-- The condition on a step: a batch is staged where there is room for it.  The records of a write
are whole, and the queue removes only what has been published. -/
def HasRoom (s : FloorState) (_ : Nat) : FloorInstr → Prop
  | .stage stored => s.topic.Fits stored ∧ ∀ r ∈ stored, r.deleted = false
  | .removeSeqs seqs => ∀ q ∈ seqs, q ≤ s.topic.headSeq
  | _ => True

instance (s : FloorState) (t : Nat) (i : FloorInstr) : Decidable (HasRoom s t i) :=
  match i with
  | .stage stored => inferInstanceAs (Decidable (s.topic.Fits stored ∧ _))
  | .removeSeqs seqs => inferInstanceAs (Decidable (∀ q ∈ seqs, q ≤ s.topic.headSeq))
  | .lock | .unlock | .readHead .. | .plan .. | .harden .. | .commit .. | .reclaim ..
  | .admitWrite .. | .publish .. | .takeBound .. | .awaitTurn .. | .select .. | .release =>
    isTrue trivial

/-- No call deletes `q`. -/
def Spares (q : Nat) (s : FloorState) (_ : Nat) : FloorInstr → Prop
  | .select beforeSeq match_ bound =>
    q ∉ s.topic.deleteVictims (TopicState.deleteBound beforeSeq bound) match_
  | .removeSeqs seqs => q ∉ seqs
  | _ => True

instance (q : Nat) (s : FloorState) (t : Nat) (i : FloorInstr) : Decidable (Spares q s t i) :=
  match i with
  | .select beforeSeq match_ bound =>
    inferInstanceAs (Decidable (q ∉ s.topic.deleteVictims (TopicState.deleteBound beforeSeq bound) match_))
  | .removeSeqs seqs => inferInstanceAs (Decidable (q ∉ seqs))
  | .lock | .unlock | .readHead .. | .plan .. | .harden .. | .commit .. | .reclaim ..
  | .admitWrite .. | .stage .. | .publish .. | .takeBound .. | .awaitTurn .. | .release =>
    isTrue trivial

/-- What a step of a retention pass or a delete has read stays true. -/
def Informed (b : TopicState) : FloorInstr → Prop
  | .plan _ head _ | .reclaim head => head ≤ b.headSeq
  | .harden plan _ head | .commit plan _ head =>
    Clears b.index plan.evictFloor ∧ Clears b.index plan.expiryFloor ∧ head ≤ b.headSeq
  | .select _ _ bound => bound ≤ b.headSeq + 1
  | _ => True

theorem Informed.mono {b b' : TopicState} {i : FloorInstr} (h : Informed b i)
    (hon : Onward b b') : Informed b' i := by
  have hhead := hon.head
  cases i with
  | plan | reclaim => exact h.trans hhead
  | harden | commit => exact ⟨h.1.mono hon, h.2.1.mono hon, h.2.2.trans hhead⟩
  | select => exact h.trans (Nat.add_le_add_right hhead 1)
  | _ => trivial

/-- A write gets to its `stage` only through the admission check. -/
def staging : FloorInstr → List (List StoredRecord)
  | .stage stored => [stored]
  | _ => []

def admitting : FloorInstr → List (List StoredRecord)
  | .admitWrite stored => [stored]
  | _ => []

/-- What admission leaves of a batch for good: it is no longer than the cap. -/
def Short (cfg : TopicConfig) (stored : List StoredRecord) : Prop :=
  0 < cfg.capRecords → stored.length ≤ cfg.capRecords

theorem short_of_not_refuses {b : TopicState} {stored : List StoredRecord}
    (hdiscard : b.config.discard = .reject) (h : ¬ b.refuses stored = true) :
    Short b.config stored := by
  intro hpos
  by_contra hlt
  refine h ?_
  have hlong : b.config.capRecords > 0 ∧ stored.length > b.config.capRecords ∧
      b.config.discard = .reject := ⟨hpos, by omega, hdiscard⟩
  simp only [refuses, decide_eq_true hlong, Bool.or_true, Bool.true_or]

structure Keeping (cfg : TopicConfig) (line : List (Nat × Option StagedAppend)) (s : FloorState) :
    Prop where
  gated : Gated line s
  accounted : Accounted line s.topic
  roomy : Roomy cfg s.topic

structure KeepingCode (cfg : TopicConfig) (line : List (Nat × Option StagedAppend)) (s : FloorState)
    (t : Nat) (code : List FloorInstr) : Prop where
  ticket : TicketCode line s.turn t code
  informed : ∀ i ∈ code, Informed s.topic i
  short : Lib.Ordered staging admitting (Short cfg) code

section Step

variable {cfg : TopicConfig} {line : List (Nat × Option StagedAppend)} {s : FloorState} {t : Nat}
  {ok : Bool} {i : FloorInstr} {rest more : List FloorInstr} {o : Outcome FloorState FloorInstr}

theorem informed_more (hk : Keeping cfg line s) (httl : cfg.ttlMs = 0) (hi : Informed s.topic i)
    (hgo : Goes s i more) : ∀ j ∈ more, Informed s.topic j := by
  intro j hj
  cases hgo with
  | done => cases hj
  | plan | selected =>
    cases mem_singleton.mp hj
    exact le_rfl
  | harden now head | commit now head =>
    cases mem_singleton.mp hj
    obtain ⟨hevict, hexpiry⟩ := hk.roomy.planned hk.accounted httl hi now
    exact ⟨hevict, hexpiry, hi⟩
  | reclaim | hardened =>
    cases mem_singleton.mp hj
    exact hi
  | committed plan byBytes head =>
    cases mem_singleton.mp hj
    exact hi.2.2
  | staged stored =>
    simp only [mem_cons, not_mem_nil, or_false] at hj
    rcases hj with rfl | rfl <;> trivial
  | bounded beforeSeq match_ now =>
    simp only [mem_cons, not_mem_nil, or_false] at hj
    rcases hj with rfl | rfl | rfl | rfl | rfl
    · trivial
    · trivial
    · trivial
    · exact le_rfl
    · trivial

theorem not_staging_more (hgo : Goes s i more) : ∀ j ∈ more, staging j = [] := by
  intro j hj
  cases hgo with
  | done => cases hj
  | plan | harden | commit | reclaim | hardened | committed | selected =>
    cases mem_singleton.mp hj
    rfl
  | staged | bounded =>
    simp only [mem_cons, not_mem_nil, or_false] at hj
    rcases hj with rfl | rfl | rfl | rfl | rfl <;> rfl

theorem short_of_admitting {s' : FloorState} (hdiscard : s.topic.config.discard = .reject)
    (hsem : sem s t ok i = some (.next s' more)) :
    ∀ stored ∈ admitting i, Short s.topic.config stored := by
  intro stored hmem
  cases i with
  | admitWrite stored' =>
    cases mem_singleton.mp hmem
    simp only [sem] at hsem
    split at hsem
    · cases hsem
    · rename_i hno
      exact short_of_not_refuses hdiscard hno
  | _ => cases hmem

/-- **The counters are exact** after every step. -/
theorem accounted_step (hc : TicketCode line s.turn t (i :: rest)) (hR : HasRoom s t i)
    (hi : Informed s.topic i) (hacc : Accounted line s.topic) (hsem : sem s t ok i = some o) :
    Accounted (nextLine line s t i) o.shared.topic := by
  obtain ⟨batches, hb, hline⟩ := hacc
  cases i with
  | commit plan byBytes head =>
    cases hsem
    exact ⟨batches, hb.commitFloors plan, hline⟩
  | reclaim head =>
    cases hsem
    exact ⟨batches, hb.reclaimFront hi, hline⟩
  | stage stored =>
    cases hsem
    exact ⟨_, hb.stage hR.2, by simp [nextLine, hline]⟩
  | takeBound beforeSeq match_ now =>
    cases hsem
    exact ⟨batches, hb, by simp [nextLine, hline]⟩
  | publish g k =>
    obtain ⟨⟨n, rfl, hfirst⟩, -⟩ := hc.first trivial
    obtain ⟨hturn, ⟨⟩⟩ := ite_none_right_eq_some.mp hsem
    obtain rfl : n = 0 := by omega
    obtain ⟨line', rfl⟩ := eq_cons_of_first hfirst
    obtain ⟨e, batches, rfl, rfl, hrest⟩ := map_eq_cons_iff.mp hline
    refine ⟨batches, Balanced.publish ?_, hrest⟩
    unfold reserveFor
    split
    · exact { hb with }
    · exact hb
  | release =>
    obtain ⟨hfirst, -⟩ := hc.first trivial
    cases hsem
    obtain ⟨line', rfl⟩ := eq_cons_of_first hfirst
    exact ⟨batches, hb, hline⟩
  | select beforeSeq match_ bound =>
    cases hsem
    exact ⟨batches, hb.deleteSelected (fun n hn => mem_some.mp hn ▸ hi) beforeSeq match_, hline⟩
  | removeSeqs seqs =>
    cases hsem
    exact ⟨batches, hb.deleteSeqs hR, hline⟩
  | readHead | plan =>
    cases hsem
    exact ⟨batches, hb, hline⟩
  | lock | unlock | harden | admitWrite | awaitTurn =>
    simp only [sem] at hsem
    split at hsem <;> cases hsem
    all_goals exact ⟨batches, hb, hline⟩

theorem roomy_step (hk : Keeping cfg line s) (hc : KeepingCode cfg line s t (i :: rest))
    (hR : HasRoom s t i) (hsem : sem s t ok i = some o) : Roomy cfg o.shared.topic := by
  have hi := hc.informed i mem_cons_self
  have hon := onward_of_sem hk.gated hc.ticket hsem
  have hstep := topicStep_of_sem hsem
  generalize o.shared.topic = b at hstep hon
  cases hstep with
  | same => exact hk.roomy
  | commit plan byBytes head => exact hk.roomy.commitFloors hi.1 hi.2.1
  | reclaim head => exact hk.roomy.reclaimFront head
  | publish g k => exact hk.roomy.publish g
  | select beforeSeq match_ bound => exact hk.roomy.select hk.accounted beforeSeq match_ hi
  | removeSeqs seqs => exact (hk.roomy.removeSeqs seqs).reclaimFront _
  | stage stored =>
    obtain ⟨⟨hrecords, hbytes⟩, -⟩ := hR
    rw [hk.roomy.config] at hrecords hbytes
    refine hk.roomy.stage (fun hpos q r hq => ?_) (hc.short.1 stored mem_cons_self) hbytes hon
    have hget := (live_eq_some.mp hq).1
    have hbase := base_le_of_get hget
    have htail := lt_tail_of_get hget
    unfold TopicIndex.tail at htail
    refine hrecords hpos q (mem_range'_1.mpr ⟨hbase, htail⟩) ?_
    rw [hq]
    rfl

/-- **One step** keeps the state and the code of every call. -/
theorem keepsWith_hasRoom (hdiscard : cfg.discard = .reject) (httl : cfg.ttlMs = 0) :
    Threads.KeepsWith HasRoom (Keeping cfg) (KeepingCode cfg) sem := by
  intro line s t ok i rest o hR hk hc hsem
  have hi := hc.informed i mem_cons_self
  have hon := onward_of_sem hk.gated hc.ticket hsem
  obtain ⟨hgated, hown, hothers⟩ := hk.gated.step hc.ticket hsem
  refine ⟨nextLine line s t i,
    ⟨hgated, accounted_step hc.ticket hR hi hk.accounted hsem, roomy_step hk hc hR hsem⟩,
    ⟨hown, ?_, ?_⟩, fun t' code hne hcode => ⟨hothers t' code hne hcode.ticket,
      fun j hj => (hcode.informed j hj).mono hon, hcode.short⟩⟩
  · cases o with
    | stop s' => exact forall_mem_nil _
    | next s' more =>
      refine forall_mem_append.mpr ⟨fun j hj => ?_, fun j hj => ?_⟩
      · exact (informed_more hk httl hi (goes_of_sem hsem) j hj).mono hon
      · exact (hc.informed j (mem_cons_of_mem i hj)).mono hon
  · cases o with
    | stop s' => trivial
    | next s' more =>
      refine hc.short.run (fun _ h => h) (fun stored hmem => .inl ?_)
        (Lib.ordered_of_no_needs (not_staging_more (goes_of_sem hsem)))
      rw [← hk.roomy.config] at hdiscard ⊢
      exact short_of_admitting hdiscard hsem stored hmem

/-- **One step** keeps a live record that it does not delete. -/
theorem live_step (hk : Keeping cfg line s) {q : Nat} {r : StoredRecord}
    (hspares : Spares q s t i) (hlive : s.topic.index.live q = some r)
    (hsem : sem s t ok i = some o) : o.shared.topic.index.live q = some r := by
  have hstep := topicStep_of_sem hsem
  generalize o.shared.topic = b at hstep
  cases hstep with
  | same => exact hlive
  | commit plan byBytes head =>
    unfold commitFloors
    split <;> exact hlive
  | reclaim head =>
    rw [live_reclaimFront, if_neg ((hk.roomy.earliestSeq_le hlive head).not_gt)]
    exact hlive
  | stage stored =>
    exact live_pushAll_of_live hlive stored
  | publish g k =>
    rw [publishStagedNoSeal_index, reserveFor_index]
    exact hlive
  | select beforeSeq match_ bound =>
    rw [live_deleteSelected, getD_some, if_neg hspares]
    exact hlive
  | removeSeqs seqs =>
    have hbase := base_le_of_get (live_eq_some.mp hlive).1
    rw [live_deleteSeqs_of_top_lt (hk.roomy.seqBase.trans hbase)
      (hk.roomy.floors.2 q r hlive) hspares]
    exact hlive

end Step

/-! ### Runs -/

theorem keeping_init (spec : TopicSpec) : Keeping spec.config [] (init spec) := by
  have hlive : ∀ q, (init spec).topic.index.live q = none := fun q => by
    simp [init, TopicSpec.fresh, TopicState.new, TopicIndex.new, TopicIndex.live, TopicIndex.get]
  have hnone : ∀ {P : Prop} {q : Nat} {r : StoredRecord},
      (init spec).topic.index.live q = some r → P := fun {P q r} h => by
    rw [hlive q] at h
    cases h
  refine ⟨gated_init spec, ⟨[], .new .., rfl⟩,
    ⟨rfl, le_rfl, fun _ q r hq => hnone hq, fun _ => Nat.zero_le _,
      ⟨?_, fun q r hq => hnone hq⟩, ⟨?_, fun q r hq => hnone hq⟩⟩⟩
  all_goals exact Nat.zero_lt_one

theorem keepingCode_body (cfg : TopicConfig) (line : List (Nat × Option StagedAppend))
    (s : FloorState) (t : Nat) (c : FloorCall) : KeepingCode cfg line s t c.body := by
  refine ⟨ticketCode_body line s.turn t c, ?_, ?_⟩
  · cases c with
    | write | diff | ack | delete => simp [FloorCall.body, Informed]
    | claim moved now =>
      refine forall_mem_cons.mpr ⟨trivial, fun i hi => ?_⟩
      obtain ⟨q, -, rfl⟩ := mem_map.mp hi
      trivial
  · cases c with
    | write stored now => simp [FloorCall.body, Lib.Ordered, staging, admitting]
    | diff | ack | delete => simp [FloorCall.body, Lib.Ordered, staging]
    | claim moved now =>
      refine Lib.ordered_of_no_needs (forall_mem_cons.mpr ⟨rfl, fun i hi => ?_⟩)
      obtain ⟨q, -, rfl⟩ := mem_map.mp hi
      rfl

/-- **Every run** keeps a live record that it does not delete. -/
theorem live_run {cfg : TopicConfig} (hdiscard : cfg.discard = .reject) (httl : cfg.ttlMs = 0)
    {line : List (Nat × Option StagedAppend)} {s s' : Threads FloorState FloorInstr}
    {as : List (ThreadAction FloorCall Bool)} {q : Nat} {r : StoredRecord}
    (hs : Threads.Holds (Keeping cfg line) (KeepingCode cfg line) s)
    (hroom : Along step (Threads.OnRun HasRoom) s as)
    (hspares : Along step (Threads.OnRun (Spares q)) s as)
    (hlive : s.shared.topic.index.live q = some r) (hrun : exec step s as = some s') :
    (∃ line', Threads.Holds (Keeping cfg line') (KeepingCode cfg line') s') ∧
      s'.shared.topic.index.live q = some r := by
  refine exec_invariant_along step
    (I := fun s => (∃ line, Threads.Holds (Keeping cfg line) (KeepingCode cfg line) s) ∧
      s.shared.topic.index.live q = some r) ?_ ⟨⟨line, hs⟩, hlive⟩ (hroom.and step hspares) hrun
  rintro s a s' ⟨⟨line, hs⟩, hlive⟩ ⟨hroom, hspares⟩ hstep
  refine ⟨hs.stepWith (fun line s t c _ => keepingCode_body cfg line s t c)
    (keepsWith_hasRoom hdiscard httl) hroom hstep, ?_⟩
  obtain ⟨t, c, rfl, -, rfl⟩ | ⟨t, x, i, rest, o, rfl, hcode, ho, rfl⟩ :=
    Threads.step_cases FloorCall.body sem hstep
  · exact hlive
  · have hi : Spares q s.shared t i := by
      simpa only [Threads.OnRun, hcode] using hspares
    exact live_step hs.shared hi hlive ho

/-- **A topic that rejects loses no live record to a cap.**  In every interleaving in which batches
are staged only where there is room for them, the live records stay within both caps, the records
of a batch are live once they are staged, and a live record stays live, and once published
deliverable from every cursor below it, until a call deletes it. -/
theorem reject_keeps_live {spec : TopicSpec} (hdiscard : spec.config.discard = .reject)
    (httl : spec.config.ttlMs = 0) {as : List (ThreadAction FloorCall Bool)}
    {s : Threads FloorState FloorInstr}
    (halong : Along step (Threads.OnRun HasRoom) (start spec) as)
    (hrun : exec step (start spec) as = some s) :
    (0 < spec.config.capRecords →
      s.shared.topic.index.liveSlots.length ≤ spec.config.capRecords) ∧
    (0 < spec.config.capBytes →
      slotBytes s.shared.topic.index.liveSlots ≤ spec.config.capBytes) ∧
    (∀ t stored rest ok s', s.code t = .stage stored :: rest →
      Threads.OnRun HasRoom s (.run t ok : ThreadAction FloorCall Bool) →
      step s (.run t ok) = some s' → ∀ k r, stored[k]? = some r →
        s'.shared.topic.index.live ((s.shared.topic.stageAppend stored).2.start + k) = some r) ∧
    ∀ q r as' s', s.shared.topic.index.live q = some r →
      Along step (Threads.OnRun HasRoom) s as' → Along step (Threads.OnRun (Spares q)) s as' →
      exec step s as' = some s' →
        s'.shared.topic.index.live q = some r ∧
          ∀ resolve req now, q ≤ s'.shared.topic.headSeq →
            s'.shared.topic.decision req now r = .deliver →
            s'.shared.topic.Deliverable resolve req now q r := by
  have hinit : Threads.Holds (Keeping spec.config []) (KeepingCode spec.config []) (start spec) :=
    ⟨keeping_init spec, fun _ => ⟨.free (forall_mem_nil _), forall_mem_nil _, trivial⟩⟩
  obtain ⟨line, hs⟩ := Threads.invariant_with
    (fun line s t c _ => keepingCode_body spec.config line s t c) (keepsWith_hasRoom hdiscard httl)
    hinit halong hrun
  have hroomy := hs.shared.roomy
  refine ⟨hroomy.length_liveSlots_le, fun hpos => ?_, ?_, ?_⟩
  · exact (slotBytes_liveSlots_le _).trans (hroomy.bytes hpos)
  · intro t stored rest ok s' hcode hroom hstep k r hr
    simp only [Threads.OnRun, hcode] at hroom
    simp only [step, Threads.step, hcode, sem, map_some, some.injEq] at hstep
    subst hstep
    change (s.shared.topic.index.pushAll stored).live (s.shared.topic.index.tail + k) = some r
    rw [live_pushAll, if_neg (by omega), Nat.add_sub_cancel_left, hr]
    simp [hroom.2 r (mem_of_getElem? hr)]
  · intro q r as' s' hlive hroom hspares hrun'
    obtain ⟨⟨line', hs'⟩, hlive'⟩ := live_run hdiscard httl hs hroom hspares hlive hrun'
    refine ⟨hlive', fun resolve req now hhead hd => ?_⟩
    exact deliverable_of_live hlive' hhead (hs'.shared.roomy.earliestSeq_le_live hlive') hd

def rejecting : TopicSpec :=
  ⟨"jobs", 1, { durable := true, capRecords := 2, capBytes := 3, discard := .reject }, 0⟩

/-- Two writes, and a delete with the given selector. -/
def deletedOf (beforeSeq : Option Nat) (match_ : Option Filter) :
    List (ThreadAction FloorCall Bool) :=
  .start 1 (.write [.plain (some "a")] 0) :: runs 1 9 ++
  .start 2 (.write [.plain (some "b")] 0) :: runs 2 11 ++
  .start 1 (.delete beforeSeq match_ 0) :: runs 1 13

def thirdWrite : List (ThreadAction FloorCall Bool) :=
  .start 1 (.write [.plain none] 0) :: runs 1 12

/-- The oldest record is deleted, and a third one is written behind the second. -/
theorem reject_keeps_live_oldestDeleted :
    ∃ s s', exec step (start rejecting) (deletedOf (some 2) none) = some s ∧
      exec step s thirdWrite = some s' ∧ s'.shared.topic.headSeq = 3 ∧
      s'.shared.topic.index.live 2 = some (.plain (some "b")) := by
  have hdiscard : rejecting.config.discard = .reject := rfl
  have httl : rejecting.config.ttlMs = 0 := rfl
  have halong : Along step (Threads.OnRun HasRoom) (start rejecting) (deletedOf (some 2) none) := by
    decide +kernel
  refine ⟨_, _, rfl, rfl, by decide +kernel, ?_⟩
  have hrun : exec step (start rejecting) (deletedOf (some 2) none) = some _ := rfl
  have hkeeps := (reject_keeps_live hdiscard httl halong hrun).2.2.2 2 (.plain (some "b"))
    thirdWrite _ rfl (by decide +kernel) (by decide +kernel) rfl
  exact hkeeps.1

/-- The second record is deleted.  Its seq still counts for the eviction: the third write is
admitted as the second live record, and evicts the first. -/
theorem reject_evicts_live :
    ∃ s s', exec step (start rejecting) (deletedOf none (some ⟨.eq, "b"⟩)) = some s ∧
      s.shared.topic.index.live 1 = some (.plain (some "a")) ∧ s.shared.topic.liveCount = 1 ∧
      Along step (Threads.OnRun (Spares 1)) s thirdWrite ∧
      exec step s thirdWrite = some s' ∧ s'.shared.topic.index.live 1 = none ∧
      s'.shared.topic.earliestSeq = 3 :=
  ⟨_, _, rfl, rfl, by decide +kernel, by decide +kernel, rfl, rfl, by decide +kernel⟩

end FloorState

end Topics
