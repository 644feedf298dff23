import Mathlib.Data.String.Basic
import Mathlib.Data.Char
import Topics.Lib.PrefixRange
import Topics.TopicRun

/-!
# Deletes by prefix and tag

What `apply_delete_stats` removes from a topic without limits, as a set of seqs, and why two
topics that show the same records up to the head lose the same ones.
-/

namespace Topics

open Lib TopicState TopicIndex List Option Std.TreeMap

variable {Blob : Type}

/-! ## The records a delete selects -/

theorem runFrom_startsWith (value : String) :
    RunFrom value fun tag => startsWith tag value := by
  have hiff : ∀ tag, startsWith tag value = true ↔ value.toList <+: tag.toList := fun tag =>
    isPrefixOf_iff_prefix
  refine ⟨fun {k} hk => ?_, fun {k k'} hk hle hlt => ?_⟩
  · refine not_lt.mp fun hlt => ?_
    exact not_lt_of_isPrefix ((hiff k).mp hk) (String.lt_iff.mp hlt)
  · refine (hiff k').mpr (isPrefix_of_between ((hiff k).mp hk) (fun h => ?_) (String.lt_iff.mp hlt))
    exact absurd hle (not_le.mpr (String.lt_iff.mpr h))

theorem TopicIndex.matchingLiveSeqs_glob (ix : TopicIndex) (value : String) (bound : Nat) :
    ix.matchingLiveSeqs ⟨.glob, value⟩ bound =
      ((((scanRun value (fun tag => startsWith tag value) (Std.TreeMap.toList ix.tagIndex)).map
        Prod.snd).flatMap id).filter (· < bound)).insertionSort (· ≤ ·) :=
  rfl

/-- **The tag index finds exactly the seqs whose tag the filter selects.** -/
theorem TopicIndex.mem_matchingLiveSeqs_iff {ix : TopicIndex} {f : Filter} {bound s : Nat} :
    s ∈ ix.matchingLiveSeqs f bound ↔
      s < bound ∧ ∃ t, f.selects t = true ∧ s ∈ ix.tagIndex.getD t [] := by
  refine ⟨of_mem_matchingLiveSeqs, fun ⟨hlt, t, hsel, hmem⟩ => ?_⟩
  obtain ⟨op, value⟩ := f
  cases op with
  | eq =>
    have ht : t = value := beq_iff_eq.mp hsel
    subst ht
    simp only [matchingLiveSeqs, mem_insertionSort, mem_filter, decide_eq_true_eq,
      mem_flatMap, mem_singleton, id_eq]
    exact ⟨⟨_, rfl, hmem⟩, hlt⟩
  | glob =>
    have hsorted : (toList ix.tagIndex).Pairwise fun e e' => e.1 < e'.1 :=
      (ordered_keys_toList (t := ix.tagIndex)).imp fun h =>
        compareOfLessAndEq_eq_lt.mp h
    rw [getD_eq_getD_getElem?] at hmem
    cases hget : ix.tagIndex[t]? with
    | none =>
      rw [hget] at hmem
      cases hmem
    | some l =>
      rw [hget] at hmem
      rw [matchingLiveSeqs_glob, mem_insertionSort, mem_filter]
      refine ⟨mem_flatMap.mpr ⟨l, mem_map.mpr ⟨(t, l), ?_, rfl⟩, hmem⟩,
        decide_eq_true hlt⟩
      exact (mem_scanRun_iff (runFrom_startsWith value) hsorted).mpr
        ⟨mem_toList_iff_getElem?_eq_some.mpr hget, hsel⟩

namespace TopicState

/-- Whether a delete by `match_` takes a record with the given tag. -/
def takesTag (match_ : Option Filter) (tag : Option String) : Bool :=
  match match_ with
  | none => true
  | some f => tag.any f.selects

/-- **The victims of a delete**: the live records below the bound that it takes; without a
filter only those at or above the logical floor. -/
theorem mem_deleteVictims_iff {b : TopicState} (h : b.index.TagExact) {bound q : Nat}
    {match_ : Option Filter} :
    q ∈ b.deleteVictims bound match_ ↔
      q < bound ∧ (match_ = none → b.floors.earliestSeq b.seqBase b.headSeq ≤ q) ∧
        ∃ r, b.index.live q = some r ∧ takesTag match_ r.tag = true := by
  cases match_ with
  | none =>
    simp only [deleteVictims, liveSeqsBelow, mem_filter, mem_range'_1]
    constructor
    · rintro ⟨⟨hlo, hhi⟩, hlive⟩
      obtain ⟨r, hr⟩ := isSome_iff_exists.mp hlive
      refine ⟨by omega, fun _ => ?_, r, hr, rfl⟩
      -- the clamp to the head does not matter: the logical floor is clamped already
      have hclamp : b.floors.earliestSeq b.seqBase b.headSeq ≤ b.headSeq + 1 := min_le_right _ _
      unfold earliestSeq at hlo
      omega
    · rintro ⟨hlt, hge, r, hr, -⟩
      have hbase := base_le_of_get (live_eq_some.mp hr).1
      have hfloor := hge trivial
      refine ⟨⟨?_, ?_⟩, by rw [hr]; rfl⟩
      all_goals
        unfold earliestSeq
        omega
  | some f =>
    have hiff : q ∈ b.deleteVictims bound (some f) ↔
        q < bound ∧ ∃ t, f.selects t = true ∧ q ∈ b.index.tagIndex.getD t [] :=
      mem_matchingLiveSeqs_iff
    rw [hiff]
    refine and_congr_right fun _ => ⟨?_, ?_⟩
    · rintro ⟨t, hsel, hmem⟩
      obtain ⟨r, hr, htag⟩ := (h.mem_iff t q).mp hmem
      exact ⟨by simp, r, hr, by simp [takesTag, htag, hsel]⟩
    · rintro ⟨-, r, hr, htakes⟩
      cases htag : r.tag with
      | none =>
        rw [htag] at htakes
        cases htakes
      | some t =>
        rw [htag] at htakes
        exact ⟨t, htakes, (h.mem_iff t q).mpr ⟨r, hr, htag⟩⟩

/-! ## A delete without retention -/

/-- The delete watermark behind a delete; only one without a filter raises it. -/
def raisedBelow (deleteBelow : Nat) (beforeSeq : Option Nat) (match_ : Option Filter)
    (pit : Nat) : Nat :=
  match match_, beforeSeq with
  | none, some s => max deleteBelow (min s pit)
  | _, _ => deleteBelow

section Delete

variable {b : TopicState} {beforeSeq : Option Nat} {match_ : Option Filter} {bound : Nat}
  {now : Int}

theorem applyDelete_of_unlimited (h : b.config.limits = false) :
    b.applyDelete beforeSeq match_ (some bound) now =
      (b.deleteSelected beforeSeq match_ (some bound)).reclaimFront b.headSeq := by
  unfold applyDelete
  simp only [enforceRetention_of_idle (retentionIdle_of_limits h)]

theorem deleteSelected_deleteBelow :
    (b.deleteSelected beforeSeq match_ (some bound)).index.deleteBelow =
      raisedBelow b.index.deleteBelow beforeSeq match_ bound := by
  cases match_ <;> cases beforeSeq <;>
    simp [deleteSelected, raisedBelow, markAll_deleteBelow]

theorem deleteSelected_floors :
    (b.deleteSelected beforeSeq match_ (some bound)).floors =
      { b.floors with
        deleteFloor := max b.floors.deleteFloor
          (raisedBelow b.index.deleteBelow beforeSeq match_ bound - 1) } := by
  rw [← deleteSelected_deleteBelow]
  rfl

section

variable (h : b.config.limits = false)

include h

theorem applyDelete_floors : (b.applyDelete beforeSeq match_ (some bound) now).floors =
      { b.floors with
        deleteFloor := max b.floors.deleteFloor
          (raisedBelow b.index.deleteBelow beforeSeq match_ bound - 1) } := by
  rw [applyDelete_of_unlimited h, reclaimFront_floors, deleteSelected_floors]

theorem applyDelete_deleteBelow :
    (b.applyDelete beforeSeq match_ (some bound) now).index.deleteBelow =
      raisedBelow b.index.deleteBelow beforeSeq match_ bound := by
  rw [applyDelete_of_unlimited h, ← deleteSelected_deleteBelow]
  rfl

theorem live_applyDelete_of_unlimited (q : Nat) :
    (b.applyDelete beforeSeq match_ (some bound) now).index.live q =
      if q < (b.applyDelete beforeSeq match_ (some bound) now).floors.earliestSeq b.seqBase
          b.headSeq ∨ q ∈ b.deleteVictims (deleteBound beforeSeq bound) match_
      then none else b.index.live q := by
  have hst := steady_deleteSelected b beforeSeq match_ (some bound)
  rw [applyDelete_of_unlimited h, live_reclaimFront, live_deleteSelected, reclaimFront_floors,
    hst.seqBase, getD_some]
  split
  · rename_i hlt
    rw [if_pos (.inl hlt)]
  · rename_i hlt
    simp only [hlt, false_or]

/-- **A delete is point-in-time**: it takes no record at or behind its bound, above the floors
it found. -/
theorem live_applyDelete_of_bound_le (htag : b.index.TagExact) (hbase : b.seqBase = seqBaseDefault)
    {q : Nat} (hq : bound ≤ q) (hfloor : b.floors.top < q) (hbelow : b.index.deleteBelow ≤ q) :
    (b.applyDelete beforeSeq match_ (some bound) now).index.live q = b.index.live q := by
  rw [live_applyDelete_of_unlimited h, if_neg]
  rintro (hlt | hmem)
  · have hraised : raisedBelow b.index.deleteBelow beforeSeq match_ bound ≤ q := by
      unfold raisedBelow
      split
      · omega
      · exact hbelow
    rw [applyDelete_floors h, hbase] at hlt
    unfold Floors.top at hfloor
    unfold Floors.earliestSeq Floors.top seqBaseDefault at hlt
    simp only at hlt
    omega
  · have := (mem_deleteVictims_iff htag).mp hmem
    have := deleteBound_le beforeSeq bound
    omega

end

end Delete

end TopicState

theorem TopicState.tagExact_applyHeadWatermark {b : TopicState} (h : b.index.TagExact) :
    b.applyHeadWatermark.index.TagExact := by
  rw [applyHeadWatermark_eq]
  split
  · refine h.pushAll fun r hr _ => ?_
    rw [eq_of_mem_replicate hr]
    rfl
  · exact h

theorem TopicIndex.TagExact.getElem?_congr {ix ix' : TopicIndex} (h : ix.TagExact)
    (h' : ix'.TagExact)
    (hlive : ∀ q, (ix'.live q).map (·.tag) = (ix.live q).map (·.tag)) (t : String) :
    ix'.tagIndex[t]? = ix.tagIndex[t]? := by
  have hmem : ∀ q, q ∈ ix'.tagIndex.getD t [] ↔ q ∈ ix.tagIndex.getD t [] := by
    intro q
    have hiff : ∀ x : Option StoredRecord,
        (∃ r, x = some r ∧ r.tag = some t) ↔ x.map (·.tag) = some (some t) := fun x => by
      rw [map_eq_some_iff]
    rw [h'.mem_iff, h.mem_iff, hiff, hiff, hlive q]
  have hlist : tagged t ix'.baseSeq ix'.records = tagged t ix.baseSeq ix.records := by
    rw [← h'.getD, ← h.getD]
    have hperm := (perm_ext_iff_of_nodup ((h'.pairwise t).imp Nat.ne_of_lt)
      ((h.pairwise t).imp Nat.ne_of_lt)).mpr hmem
    exact hperm.eq_of_pairwise (fun a b _ _ hab hba => absurd hab (Nat.lt_asymm hba))
      (h'.pairwise t) (h.pairwise t)
  rw [h' t, h t, hlist]

/-! ## The live topic and the replayed one -/

/-- `R` shows the records of `L` up to the head of `L`; behind the head `L` may hold staged
records. -/
structure SameToHead (R L : TopicState) : Prop where
  sound : R.Sound
  seqBase : L.seqBase = seqBaseDefault
  tagExact : L.index.TagExact
  unlimited : R.config.limits = false
  unlimited' : L.config.limits = false
  headSeq : R.headSeq = L.headSeq
  floors : R.floors = L.floors
  deleteBelow : R.index.deleteBelow = L.index.deleteBelow
  live : ∀ q ≤ L.headSeq, (R.index.live q).map (·.tag) = (L.index.live q).map (·.tag)

namespace SameToHead

variable {R L : TopicState} (h : SameToHead R L)

include h

variable {q bound : Nat} {records : List StoredRecord}

theorem exists_live_iff (hq : q ≤ L.headSeq) (P : Option String → Prop) :
    (∃ r, R.index.live q = some r ∧ P r.tag) ↔ ∃ r, L.index.live q = some r ∧ P r.tag := by
  have hlive := h.live q hq
  cases hR : R.index.live q with
  | none =>
    rw [hR] at hlive
    rw [map_eq_none_iff.mp hlive.symm]
  | some r =>
    rw [hR, map_some] at hlive
    obtain ⟨r', hr', htag⟩ := map_eq_some_iff.mp hlive.symm
    rw [hr']
    constructor
    · rintro ⟨r₁, hr₁, hP⟩
      cases hr₁
      exact ⟨r', rfl, by rw [htag]; exact hP⟩
    · rintro ⟨r₁, hr₁, hP⟩
      cases hr₁
      exact ⟨r, rfl, by rw [← htag]; exact hP⟩

theorem mem_deleteVictims (hbound : bound ≤ L.headSeq + 1) (match_ : Option Filter) :
    q ∈ R.deleteVictims bound match_ ↔ q ∈ L.deleteVictims bound match_ := by
  rw [mem_deleteVictims_iff h.sound.tagExact,
    mem_deleteVictims_iff h.tagExact, h.floors, h.headSeq, h.sound.seqBase, h.seqBase]
  refine and_congr_right fun hlt => and_congr_right fun _ => ?_
  exact h.exists_live_iff (by omega) fun tag => takesTag match_ tag = true

theorem applyDelete {beforeSeq : Option Nat} {match_ : Option Filter}
    (hbound : bound ≤ L.headSeq + 1) (now now' : Int) :
    SameToHead (R.applyDelete beforeSeq match_ (some bound) now)
      (L.applyDelete beforeSeq match_ (some bound) now') := by
  have hR := steady_applyDelete R beforeSeq match_ (some bound) now
  have hL := steady_applyDelete L beforeSeq match_ (some bound) now'
  have hfloors : (R.applyDelete beforeSeq match_ (some bound) now).floors =
      (L.applyDelete beforeSeq match_ (some bound) now').floors := by
    rw [applyDelete_floors h.unlimited, applyDelete_floors h.unlimited',
      h.floors, h.deleteBelow]
  refine ⟨h.sound.of_steady hR (tagExact_applyDelete h.sound.tagExact _ _ _ _),
    hL.seqBase.trans h.seqBase, tagExact_applyDelete h.tagExact _ _ _ _, ?_, ?_, ?_,
    hfloors, ?_, fun q hq => ?_⟩
  · rw [hR.config]
    exact h.unlimited
  · rw [hL.config]
    exact h.unlimited'
  · rw [hR.headSeq, hL.headSeq]
    exact h.headSeq
  · rw [applyDelete_deleteBelow h.unlimited,
      applyDelete_deleteBelow h.unlimited', h.deleteBelow]
  · rw [hL.headSeq] at hq
    have hle := (deleteBound_le beforeSeq bound).trans hbound
    rw [live_applyDelete_of_unlimited h.unlimited,
      live_applyDelete_of_unlimited h.unlimited', hfloors, h.headSeq, h.sound.seqBase,
      h.seqBase]
    simp only [h.mem_deleteVictims hle]
    split
    · rfl
    · exact h.live q hq

theorem stage (htail : L.headSeq + 1 ≤ L.index.tail) (hwhole : ∀ r ∈ records, r.deleted = false) :
    SameToHead R (L.stageAppend records).1 := by
  refine ⟨h.sound, h.seqBase, ?_, h.unlimited, h.unlimited', h.headSeq, h.floors, ?_,
    fun q hq => ?_⟩
  · refine h.tagExact.pushAll fun r hr hdel => ?_
    rw [hwhole r hr] at hdel
    cases hdel
  · simp only [stageAppend, pushAll_deleteBelow]
    exact h.deleteBelow
  · have hlt : q < L.index.tail := (Nat.lt_succ_of_le hq).trans_le htail
    simp only [stageAppend]
    rw [live_pushAll, if_pos hlt]
    exact h.live q hq

theorem publish (S : Serde Blob) (now : Int) {g : StagedAppend} (hstart : g.start = L.headSeq + 1)
    (hcount : g.count = records.length) (hpos : 0 < g.count)
    (hstaged : ∀ i r, records[i]? = some r → L.index.live (g.start + i) = some r) :
    SameToHead (R.append (records.map (replayedRecord S now))) (L.publishStagedNoSeal g) := by
  have hRtail := h.sound.dense
  have hhead : (R.append (records.map (replayedRecord S now))).headSeq =
      L.headSeq + records.length := by
    rw [append_headSeq hRtail, length_map, h.headSeq]
  have hpub : L.publishStagedNoSeal g =
      { L with
        headSeq := g.publishHead
        bytesRetained := L.bytesRetained + g.addedBytes
        liveCount := L.liveCount + g.count } := if_neg hpos.ne'
  have hhead' : (L.publishStagedNoSeal g).headSeq = L.headSeq + records.length := by
    rw [hpub]
    unfold StagedAppend.publishHead
    simp only
    omega
  have hwhole : ∀ r ∈ records.map (replayedRecord S now), r.deleted = false := by
    intro r hr
    obtain ⟨r', -, rfl⟩ := mem_map.mp hr
    rfl
  refine ⟨⟨?_, ?_, ?_, ?_⟩, ?_, ?_, ?_, ?_, hhead.trans hhead'.symm, ?_, ?_, fun q hq => ?_⟩
  · rw [append_config]
    exact h.sound.persistent
  · rw [hhead, append_index, tail_pushAll, hRtail, length_map, h.headSeq]
    omega
  · rw [append_seqBase]
    exact h.sound.seqBase
  · rw [append_index]
    refine h.sound.tagExact.pushAll fun r hr hdel => ?_
    rw [hwhole r hr] at hdel
    cases hdel
  · rw [hpub]
    exact h.seqBase
  · rw [hpub]
    exact h.tagExact
  · rw [append_config]
    exact h.unlimited
  · rw [hpub]
    exact h.unlimited'
  · rw [append_floors, hpub]
    exact h.floors
  · rw [append_index, hpub]
    simp only [pushAll_deleteBelow]
    exact h.deleteBelow
  · have hindex : (L.publishStagedNoSeal g).index = L.index :=
      publishStagedNoSeal_index L g
    rw [hindex]
    by_cases hold : q ≤ L.headSeq
    · rw [← h.live q hold, append_index, live_pushAll, if_pos]
      rw [hRtail, h.headSeq]
      omega
    · rw [hhead'] at hq
      have hi : q - R.index.tail < records.length := by
        rw [hRtail, h.headSeq]
        omega
      have hseq : g.start + (q - R.index.tail) = q := by
        rw [hRtail, h.headSeq, hstart]
        omega
      have hlive := hstaged _ _ (getElem?_eq_getElem hi)
      rw [hseq] at hlive
      rw [hlive, append_index, live_pushAll, if_neg, getElem?_map,
        getElem?_eq_getElem hi]
      · rfl
      · rw [hRtail, h.headSeq]
        omega

end SameToHead

end Topics
