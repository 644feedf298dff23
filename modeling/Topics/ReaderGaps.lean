import Topics.Paging
import Topics.TopicSteps

/-!
# What a reader is told about lost records

A reader pages through a topic with its own cursor while writers write, calls delete and retention
evicts.  The page reads the head, the floors, the front of the index and the floors again, one lock
after the other, before it walks the index.
-/

namespace Topics

open Lib TopicState TopicIndex FloorState Option List

/-! ## Lost records -/

/-- A call has deleted the record, or retention has. -/
def Lost (removed : List Nat) (b : TopicState) (q : Nat) : Prop :=
  q ∈ removed ∨ q ≤ b.floors.involuntary

/-- Every slot that is not live is accounted for. -/
structure Explained (removed : List Nat) (b : TopicState) : Prop where
  seqBase : b.seqBase ≤ 1
  slots : ∀ q, 0 < q → q < b.index.tail → (b.index.live q).isSome = true ∨ Lost removed b q
  deleteFloor : ∀ q, 0 < q → q ≤ b.floors.deleteFloor → Lost removed b q
  deleteBelow : ∀ q, 0 < q → q < b.index.deleteBelow → Lost removed b q

theorem Floors.Le.involuntary {f g : Floors} (h : f.Le g) : f.involuntary ≤ g.involuntary := by
  have := h.evict
  have := h.expiry
  have := h.sourceTrim
  unfold Floors.involuntary
  omega

theorem Lost.mono {removed more : List Nat} {b b' : TopicState} {q : Nat} (h : Lost removed b q)
    (hfloors : b.floors.Le b'.floors) : Lost (removed ++ more) b' q :=
  h.imp (mem_append_left more) fun hle => hle.trans hfloors.involuntary

namespace Explained

variable {removed : List Nat} {b : TopicState}

section

variable (h : Explained removed b)

include h

theorem below_earliestSeq {q head : Nat} (hpos : 0 < q)
    (hq : q < b.floors.earliestSeq b.seqBase head) : Lost removed b q := by
  have hseqBase := h.seqBase
  by_cases hinv : q ≤ b.floors.involuntary
  · exact .inr hinv
  · refine h.deleteFloor q hpos ?_
    unfold Floors.earliestSeq Floors.top at hq
    unfold Floors.involuntary at hinv
    omega

theorem below_base {q : Nat} (hpos : 0 < q) (hq : q < b.index.baseSeq) : Lost removed b q := by
  rcases h.slots q hpos (by unfold TopicIndex.tail; omega) with hlive | hlost
  · obtain ⟨r, hr⟩ := isSome_iff_exists.mp hlive
    have := base_le_of_get (live_eq_some.mp hr).1
    omega
  · exact hlost

theorem more (seqs : List Nat) : Explained (removed ++ seqs) b :=
  ⟨h.seqBase, fun q hpos hq => (h.slots q hpos hq).imp_right fun hl => hl.mono (Floors.Le.refl _),
    fun q hpos hq => (h.deleteFloor q hpos hq).mono (Floors.Le.refl _),
    fun q hpos hq => (h.deleteBelow q hpos hq).mono (Floors.Le.refl _)⟩

theorem of_steady {b' : TopicState} {more : List Nat} (hsteady : b.Steady b')
    (hfloors : b.floors.Le b'.floors)
    (hgone : ∀ q r, 0 < q → b.index.live q = some r → b'.index.live q = none →
      Lost (removed ++ more) b' q)
    (hdeleteFloor : ∀ q, 0 < q → b.floors.deleteFloor < q → q ≤ b'.floors.deleteFloor →
      Lost (removed ++ more) b' q)
    (hdeleteBelow : ∀ q, 0 < q → b.index.deleteBelow ≤ q → q < b'.index.deleteBelow →
      Lost (removed ++ more) b' q) : Explained (removed ++ more) b' := by
  refine ⟨?_, fun q hpos hq => ?_, fun q hpos hq => ?_, fun q hpos hq => ?_⟩
  · rw [hsteady.seqBase]
    exact h.seqBase
  · rw [hsteady.tail] at hq
    cases hlive' : b'.index.live q with
    | some r => exact .inl rfl
    | none =>
      right
      rcases h.slots q hpos hq with hlive | hlost
      · obtain ⟨r, hr⟩ := isSome_iff_exists.mp hlive
        exact hgone q r hpos hr hlive'
      · exact hlost.mono hfloors
  · by_cases hold : q ≤ b.floors.deleteFloor
    · exact (h.deleteFloor q hpos hold).mono hfloors
    · exact hdeleteFloor q hpos (by omega) hq
  · by_cases hold : q < b.index.deleteBelow
    · exact (h.deleteBelow q hpos hold).mono hfloors
    · exact hdeleteBelow q hpos (by omega) hq

theorem commitFloors (plan : TopicState.RetentionAdvance) :
    Explained removed (b.commitFloors plan) := by
  have hsteady := steady_commitFloors b plan
  have hindex := commitFloors_index b plan
  have hdelete : (b.commitFloors plan).floors.deleteFloor = b.floors.deleteFloor := by
    unfold TopicState.commitFloors
    split <;> rfl
  rw [← append_nil removed]
  refine h.of_steady hsteady (floors_le_commitFloors b plan) ?_ ?_ ?_
  · intro q r _ hr hnone
    rw [hindex, hr] at hnone
    cases hnone
  · intro q _ hlt hle
    omega
  · intro q _ hle hlt
    rw [hindex] at hlt
    omega

theorem reclaimFront (head : Nat) : Explained removed (b.reclaimFront head) := by
  rw [← append_nil removed]
  refine h.of_steady (steady_reclaimFront b head) (Floors.Le.refl _) ?_ ?_ ?_
  · intro q r hpos hr hnone
    rw [live_reclaimFront] at hnone
    split at hnone
    · rename_i hlt
      exact (h.below_earliestSeq hpos hlt).mono (Floors.Le.refl _)
    · rw [hr] at hnone
      cases hnone
  · intro q _ hlt hle
    exact absurd hle hlt.not_ge
  · intro q _ hle hlt
    exact absurd hlt hle.not_gt

theorem removeSeqs (seqs : List Nat) : Explained (removed ++ seqs) (b.deleteSeqs seqs) := by
  refine reclaimFront (b := b.markSeqs seqs) ?_ b.headSeq
  refine h.of_steady (steady_markSeqs b seqs) (Floors.Le.refl _) ?_ ?_ ?_
  · intro q r _ hr hnone
    have hmark : (b.markSeqs seqs).index.live q = if q ∈ seqs then none else b.index.live q :=
      live_markAll ..
    rw [hmark] at hnone
    split at hnone
    · rename_i hmem
      exact .inl (mem_append_right _ hmem)
    · rw [hr] at hnone
      cases hnone
  · intro q _ hlt hle
    exact absurd hle hlt.not_ge
  · intro q _ hle hlt
    have hbelow : (b.markSeqs seqs).index.deleteBelow = b.index.deleteBelow :=
      markAll_deleteBelow ..
    omega

theorem below_bound {s bound q : Nat} (hbound : bound ≤ b.index.tail) (hpos : 0 < q)
    (hq : q < min s bound) :
    Lost (removed ++ b.deleteVictims (TopicState.deleteBound (some s) bound) none) b q := by
  rcases h.slots q hpos (by omega) with hlive | hlost
  · by_cases hlo : max b.earliestSeq b.index.baseSeq ≤ q
    · refine .inl (mem_append_right _ (mem_filter.mpr ⟨?_, hlive⟩))
      rw [mem_range'_1, deleteBound]
      omega
    · have hlost : Lost removed b q := by
        by_cases hbase : q < b.index.baseSeq
        · exact h.below_base hpos hbase
        · refine @below_earliestSeq removed b h q b.headSeq hpos ?_
          unfold earliestSeq at hlo
          omega
      exact hlost.mono (Floors.Le.refl _)
  · exact hlost.mono (Floors.Le.refl _)

theorem select (beforeSeq : Option Nat) (match_ : Option Filter) {bound : Nat}
    (hbound : bound ≤ b.index.tail) :
    Explained (removed ++ b.deleteVictims (TopicState.deleteBound beforeSeq bound) match_)
      (b.deleteSelected beforeSeq match_ (some bound)) := by
  have hfloors := floors_le_deleteSelected b beforeSeq match_ (some bound)
  have hbelow : ∀ q, 0 < q → b.index.deleteBelow ≤ q →
      q < (b.deleteSelected beforeSeq match_ (some bound)).index.deleteBelow →
      Lost (removed ++ b.deleteVictims (deleteBound beforeSeq bound) match_) b q := by
    intro q hpos hle hlt
    simp only [deleteSelected, markAll_deleteBelow, getD_some] at hlt
    cases match_ with
    | some f => exact absurd hlt hle.not_gt
    | none =>
      cases beforeSeq with
      | none => exact absurd hlt hle.not_gt
      | some s => exact h.below_bound hbound hpos (by simp only at hlt; omega)
  have hmono : ∀ q, Lost (removed ++ b.deleteVictims (deleteBound beforeSeq bound) match_) b q →
      Lost (removed ++ b.deleteVictims (deleteBound beforeSeq bound) match_)
        (b.deleteSelected beforeSeq match_ (some bound)) q := fun q hq => by
    rw [← append_nil (_ ++ _)]
    exact hq.mono hfloors
  refine h.of_steady (steady_deleteSelected b beforeSeq match_ (some bound)) hfloors ?_ ?_ ?_
  · intro q r _ hr hnone
    rw [live_deleteSelected, getD_some] at hnone
    split at hnone
    · rename_i hmem
      exact .inl (mem_append_right _ hmem)
    · rw [hr] at hnone
      cases hnone
  · intro q hpos hlt hle
    have hfloor : (b.deleteSelected beforeSeq match_ (some bound)).floors.deleteFloor =
        max b.floors.deleteFloor
          ((b.deleteSelected beforeSeq match_ (some bound)).index.deleteBelow - 1) := rfl
    by_cases hold : q < b.index.deleteBelow
    · exact (h.deleteBelow q hpos hold).mono hfloors
    · exact hmono q (hbelow q hpos (by omega) (by omega))
  · intro q hpos hle hlt
    exact hmono q (hbelow q hpos hle hlt)

theorem stage {stored : List StoredRecord} (hstored : ∀ r ∈ stored, r.deleted = false) :
    Explained removed (b.stageAppend stored).1 := by
  refine ⟨h.seqBase, fun q hpos hq => ?_, h.deleteFloor, fun q hpos hq => ?_⟩
  · change q < (b.index.pushAll stored).tail at hq
    change ((b.index.pushAll stored).live q).isSome = true ∨ _
    rw [tail_pushAll] at hq
    rw [live_pushAll]
    by_cases hlt : q < b.index.tail
    · rw [if_pos hlt]
      exact h.slots q hpos hlt
    · left
      have hlen : q - b.index.tail < stored.length := by omega
      rw [if_neg hlt, getElem?_eq_getElem hlen, filter_some,
        hstored _ (getElem_mem hlen)]
      rfl
  · change q < (b.index.pushAll stored).deleteBelow at hq
    rw [pushAll_deleteBelow] at hq
    exact h.deleteBelow q hpos hq

theorem publish (g : StagedAppend) :
    Explained removed ((b.reserveFor g).publishStagedNoSeal g) := by
  unfold publishStagedNoSeal reserveFor
  split <;> split <;> exact { h with }

end

end Explained

namespace FloorState

variable {s : FloorState} {t : Nat} {ok : Bool} {i : FloorInstr} {o : Outcome FloorState FloorInstr}

theorem floors_le_of_sem (h : sem s t ok i = some o) :
    s.topic.floors.Le o.shared.topic.floors := by
  have hstep := topicStep_of_sem h
  generalize o.shared.topic = b at hstep
  cases hstep with
  | same | reclaim | stage | removeSeqs => exact Floors.Le.refl _
  | commit plan => exact floors_le_commitFloors _ plan
  | select beforeSeq match_ bound => exact floors_le_deleteSelected _ beforeSeq match_ _
  | publish g k =>
    unfold publishStagedNoSeal reserveFor
    split <;> split <;> exact Floors.Le.refl _

def removes (s : FloorState) : FloorInstr → List Nat
  | .select beforeSeq match_ bound =>
    s.topic.deleteVictims (TopicState.deleteBound beforeSeq bound) match_
  | .removeSeqs seqs => seqs
  | _ => []

/-- **One step** loses only what it deletes and what the involuntary floor covers. -/
theorem explained_step {removed : List Nat} (h : Explained removed s.topic)
    (hbound : ∀ beforeSeq match_ bound, i = .select beforeSeq match_ bound →
      bound ≤ s.topic.index.tail)
    (hstored : ∀ stored, i = .stage stored → ∀ r ∈ stored, r.deleted = false)
    (hsem : sem s t ok i = some o) : Explained (removed ++ s.removes i) o.shared.topic := by
  have hstep := topicStep_of_sem hsem
  generalize o.shared.topic = b at hstep
  cases hstep with
  | same => exact h.more _
  | commit plan byBytes head => exact (h.commitFloors plan).more _
  | reclaim head => exact (h.reclaimFront head).more _
  | stage stored => exact (h.stage (hstored stored rfl)).more _
  | publish g k => exact (h.publish g).more _
  | select beforeSeq match_ bound => exact h.select beforeSeq match_ (hbound _ _ _ rfl)
  | removeSeqs seqs => exact h.removeSeqs seqs

end FloorState

/-! ## The reader -/

/-- The topic with its calls, and the reader with what it has been given and told. -/
structure ReadState where
  calls : FloorState
  /-- The reader's `next_from_seq`. -/
  cursor : Nat
  delivered : List RecordOut
  /-- The gaps of the tombstones it got. -/
  gaps : List (Nat × Nat)
  /-- History: the seqs that calls have deleted. -/
  removed : List Nat
  /-- History: every record with the seq it was written at. -/
  written : List (Nat × StoredRecord)

/-- The steps of the calls of the topic, and those of a page behind its retention pass. -/
inductive ReadInstr where
  | call (i : FloorInstr)
  | loadHead (req : DiffRequest) (now : Int)
  /-- `earliest_seq` reads the head again, then the floors, then the front of the index. -/
  | loadEarliest (req : DiffRequest) (now : Int) (head : Nat)
  | loadFloors (req : DiffRequest) (now : Int) (head head' : Nat)
  | loadBase (req : DiffRequest) (now : Int) (head head' floorEarliest : Nat)
  | loadEvictEarliest (req : DiffRequest) (now : Int) (head earliest : Nat)
  | walk (req : DiffRequest) (now : Int) (head earliest evictEarliest : Nat)

/-- The calls on the topic, and a page of the reader. -/
inductive ReadCall where
  | call (c : FloorCall)
  | page (req : DiffRequest) (now : Int)

def ReadCall.body : ReadCall → List ReadInstr
  | .call c => c.body.map .call
  | .page req now => [.call (.readHead now true), .loadHead req now]

namespace ReadState

def init (spec : TopicSpec) (cursor : Nat) : ReadState := ⟨.init spec, cursor, [], [], [], []⟩

/-- Where the walk of a page starts, and the gap of its tombstone. -/
def pageStart (seqBase cursor head earliest evictEarliest : Nat) : Nat × List (Nat × Nat) :=
  if cursor > head then (earliest - 1, [(seqBase, head)])
  else if cursor + 1 < evictEarliest then
    (max (earliest - 1) cursor, [(cursor + 1, evictEarliest - 1)])
  else (cursor, [])

def stages (s : FloorState) : FloorInstr → List (Nat × StoredRecord)
  | .stage stored => List.zip (List.range' s.topic.index.tail stored.length) stored
  | _ => []

section Sem

variable (node : Option NodeFilter) (resolve : Nat → Value × Option Value)

def after (s : ReadState) (i : FloorInstr) (calls : FloorState) : ReadState :=
  { s with
    calls := calls
    removed := s.removed ++ s.calls.removes i
    written := s.written ++ stages s.calls i }

/-- The response of a page, once the index has been walked. -/
def page (s : ReadState) (req : DiffRequest) (now : Int) (head earliest evictEarliest : Nat) :
    ReadState :=
  let (start, gaps) := pageStart s.calls.topic.seqBase s.cursor head earliest evictEarliest
  let w := s.calls.topic.diffWalk resolve { req with node := node } now (head - start) (start + 1)
    ⟨[], 0, start, 0⟩
  { s with
    cursor := w.nextFromSeq
    delivered := s.delivered ++ w.records
    gaps := s.gaps ++ gaps }

/-- One step of thread `t`.  The reader is thread `0`, and its node filter is always the same. -/
def sem (s : ReadState) (t : Nat) (ok : Bool) : ReadInstr → Option (Outcome ReadState ReadInstr)
  | .call i =>
    (s.calls.sem t ok i).map fun o =>
      match o with
      | .next calls more => .next (s.after i calls) (more.map .call)
      | .stop calls => .stop (s.after i calls)
  | .loadHead req now =>
    if t = 0 then some (.next s [.loadEarliest req now s.calls.topic.headSeq]) else none
  | .loadEarliest req now head =>
    some (.next s [.loadFloors req now head s.calls.topic.headSeq])
  | .loadFloors req now head head' =>
    some (.next s [.loadBase req now head head'
      (s.calls.topic.floors.earliestSeq s.calls.topic.seqBase head')])
  | .loadBase req now head head' floorEarliest =>
    some (.next s [.loadEvictEarliest req now head
      (min (max floorEarliest s.calls.topic.index.baseSeq) (head' + 1))])
  | .loadEvictEarliest req now head earliest =>
    some (.next s [.walk req now head earliest s.calls.topic.evictEarliestSeq])
  | .walk req now head earliest evictEarliest =>
    some (.next (s.page node resolve req now head earliest evictEarliest) [])

end Sem

theorem page_eq_diff (node : Option NodeFilter) (resolve : Nat → Value × Option Value)
    (s : ReadState) (req : DiffRequest) (now : Int) :
    let d := s.calls.topic.diff resolve { req with fromSeq := s.cursor, node := node } now
    let s' := s.page node resolve { req with fromSeq := s.cursor } now s.calls.topic.headSeq
      s.calls.topic.earliestSeq s.calls.topic.evictEarliestSeq
    s'.cursor = d.nextFromSeq ∧ s'.delivered = s.delivered ++ d.records ∧
      s'.gaps = s.gaps ++ (d.tombstone.map fun x => (x.gapFrom, x.gapTo)).toList := by
  have hstart : (pageStart s.calls.topic.seqBase s.cursor s.calls.topic.headSeq
      s.calls.topic.earliestSeq s.calls.topic.evictEarliestSeq).1 =
        s.calls.topic.diffCursor { req with fromSeq := s.cursor, node := node } := by
    unfold pageStart diffCursor
    simp only
    split
    · rfl
    · split <;> rfl
  have hgaps : (pageStart s.calls.topic.seqBase s.cursor s.calls.topic.headSeq
      s.calls.topic.earliestSeq s.calls.topic.evictEarliestSeq).2 =
        ((s.calls.topic.diffTombstone { req with fromSeq := s.cursor, node := node }).map
          fun x => (x.gapFrom, x.gapTo)).toList := by
    unfold pageStart diffTombstone
    simp only
    split
    · rfl
    · split <;> rfl
  simp [page, diff, hstart, hgaps]

/-! ## What is promised, and when -/

/-- The condition on a step: the records that a page is to walk over are there and young enough,
unless a call has deleted them; and a cursor ahead of the head has not been passed by an eviction
since.  The records of a write are whole. -/
def AllPresent (s : ReadState) (_ : Nat) : ReadInstr → Prop
  | .walk _ now head earliest evictEarliest =>
    let start := (pageStart s.calls.topic.seqBase s.cursor head earliest evictEarliest).1
    (head < s.cursor → earliest ≤ s.cursor + 1) ∧
      ∀ q ∈ List.range' (start + 1) (head - start), q ∈ s.removed ∨
        (s.calls.topic.index.live q).any
          (fun r => !ttlExpired s.calls.topic.config.ttlMs now r.ts) = true
  | .call (.stage stored) => ∀ r ∈ stored, r.deleted = false
  | _ => True

instance (s : ReadState) (t : Nat) (i : ReadInstr) : Decidable (AllPresent s t i) :=
  match i with
  | .walk .. => inferInstanceAs (Decidable ((_ → _) ∧ ∀ q ∈ List.range' _ _, _))
  | .call (.stage stored) => inferInstanceAs (Decidable (∀ r ∈ stored, r.deleted = false))
  | .call .lock | .call .unlock | .call (.readHead ..) | .call (.plan ..) | .call (.harden ..)
  | .call (.commit ..) | .call (.reclaim ..) | .call (.admitWrite ..) | .call (.publish ..)
  | .call (.takeBound ..) | .call (.awaitTurn ..) | .call (.select ..) | .call .release
  | .call (.removeSeqs ..) | .loadHead .. | .loadEarliest .. | .loadFloors .. | .loadBase ..
  | .loadEvictEarliest .. => isTrue trivial

/-- The topic filters by node, and the filter names the record's node. -/
def Excluded (cfg : TopicConfig) (node : Option NodeFilter) (r : StoredRecord) : Prop :=
  cfg.dedupeNode = true ∧ ∃ f n, node = some f ∧ r.node = some n ∧ f.accepts n = true

/-- What the reader knows about a record that its cursor has passed. -/
def Told (cfg : TopicConfig) (node : Option NodeFilter) (resolve : Nat → Value × Option Value)
    (s : ReadState) (q : Nat) (r : StoredRecord) : Prop :=
  (∃ req, TopicState.recordOut resolve req q r ∈ s.delivered) ∨ q ∈ s.removed ∨
    Excluded cfg node r ∨ ∃ gap ∈ s.gaps, gap.1 ≤ q ∧ q ≤ gap.2

/-! ## One step -/

/-- The steps of the calls in the code of a thread. -/
def callCode (code : List ReadInstr) : List FloorInstr :=
  code.filterMap fun
    | .call i => some i
    | _ => none

theorem callCode_cons_call (i : FloorInstr) (rest : List ReadInstr) :
    callCode (.call i :: rest) = i :: callCode rest := rfl

theorem callCode_append (code code' : List ReadInstr) :
    callCode (code ++ code') = callCode code ++ callCode code' := filterMap_append

theorem callCode_map (code : List FloorInstr) : callCode (code.map .call) = code := by
  induction code with
  | nil => rfl
  | cons i code ih => rw [map_cons, callCode_cons_call, ih]

/-- Everything in front of `first` is lost. -/
def Covers (s : ReadState) (first : Nat) : Prop :=
  ∀ q, 0 < q → q < first → Lost s.removed s.calls.topic q

/-- What the steps of a page and of a delete have read. -/
def Informed (s : ReadState) : ReadInstr → Prop
  | .call (.select _ _ bound) => bound ≤ s.calls.topic.headSeq + 1
  | .loadEarliest _ _ head => head ≤ s.calls.topic.headSeq
  | .loadFloors _ _ head head' => head ≤ s.calls.topic.headSeq ∧ head' ≤ s.calls.topic.headSeq
  | .loadBase _ _ head head' floorEarliest =>
    head ≤ s.calls.topic.headSeq ∧ head' ≤ s.calls.topic.headSeq ∧ Covers s floorEarliest
  | .loadEvictEarliest _ _ head earliest =>
    head ≤ s.calls.topic.headSeq ∧ earliest ≤ s.calls.topic.headSeq + 1 ∧ Covers s earliest
  | .walk _ _ head earliest evictEarliest =>
    head ≤ s.calls.topic.headSeq ∧ earliest ≤ s.calls.topic.headSeq + 1 ∧
      ∀ q, 0 < q → q < earliest → q ∈ s.removed ∨ q < evictEarliest
  | _ => True

structure Grows (s s' : ReadState) : Prop where
  head : s.calls.topic.headSeq ≤ s'.calls.topic.headSeq
  removed : s.removed ⊆ s'.removed
  involuntary : s.calls.topic.floors.involuntary ≤ s'.calls.topic.floors.involuntary

theorem Grows.refl (s : ReadState) : Grows s s := ⟨le_rfl, List.Subset.refl _, le_rfl⟩

theorem Covers.mono {s s' : ReadState} {first : Nat} (h : Covers s first) (hg : Grows s s') :
    Covers s' first := fun q hpos hq =>
  (h q hpos hq).imp (fun hmem => hg.removed hmem) fun hle => hle.trans hg.involuntary

theorem Informed.mono {s s' : ReadState} {i : ReadInstr} (h : Informed s i) (hg : Grows s s') :
    Informed s' i := by
  have hhead := hg.head
  cases i with
  | call i =>
    cases i with
    | select beforeSeq match_ bound => exact h.trans (Nat.add_le_add_right hhead 1)
    | _ => trivial
  | loadHead => trivial
  | loadEarliest req now head => exact h.trans hhead
  | loadFloors req now head head' => exact ⟨h.1.trans hhead, h.2.trans hhead⟩
  | loadBase req now head head' floorEarliest =>
    exact ⟨h.1.trans hhead, h.2.1.trans hhead, h.2.2.mono hg⟩
  | loadEvictEarliest req now head earliest =>
    exact ⟨h.1.trans hhead, h.2.1.trans (Nat.add_le_add_right hhead 1), h.2.2.mono hg⟩
  | walk req now head earliest evictEarliest =>
    refine ⟨h.1.trans hhead, h.2.1.trans (Nat.add_le_add_right hhead 1), fun q hpos hq => ?_⟩
    exact (h.2.2 q hpos hq).imp_left fun hmem => hg.removed hmem

/-- The state of the topic and of the reader that started at `start`. -/
structure Sound (spec : TopicSpec) (node : Option NodeFilter)
    (resolve : Nat → Value × Option Value) (start : Nat) (line : List (Nat × Option StagedAppend))
    (s : ReadState) : Prop where
  gated : FloorState.Gated line s.calls
  config : s.calls.topic.config = spec.config
  explained : Explained s.removed s.calls.topic
  written : ∀ e ∈ s.written, e.1 < s.calls.topic.index.tail ∧
    ∀ r, s.calls.topic.index.live e.1 = some r → r = e.2
  cursor : s.cursor ≤ max start s.calls.topic.headSeq
  told : ∀ e ∈ s.written, start < e.1 → e.1 ≤ s.cursor → Told spec.config node resolve s e.1 e.2

structure SoundCode (line : List (Nat × Option StagedAppend)) (s : ReadState) (t : Nat)
    (code : List ReadInstr) : Prop where
  ticket : FloorState.TicketCode line s.calls.turn t (callCode code)
  informed : ∀ i ∈ code, Informed s i

section Step

variable {spec : TopicSpec} {node : Option NodeFilter} {resolve : Nat → Value × Option Value}
  {start : Nat} {line : List (Nat × Option StagedAppend)} {s : ReadState} {t : Nat} {ok : Bool}
  {i : FloorInstr} {rest : List ReadInstr} {o : Outcome ReadState ReadInstr}

theorem call_cases (h : sem node resolve s t ok (.call i) = some o) :
    ∃ o', s.calls.sem t ok i = some o' ∧ o.shared = s.after i o'.shared ∧
      callCode (o.code rest) = o'.code (callCode rest) ∧
      ∀ j ∈ o.code rest, j ∈ rest ∨
        ∃ c more k, o' = .next c more ∧ k ∈ more ∧ j = .call k := by
  obtain ⟨o', ho', rfl⟩ := map_eq_some_iff.mp h
  refine ⟨o', ho', ?_⟩
  cases o' with
  | next c more =>
    refine ⟨rfl, ?_, fun j hj => ?_⟩
    · change callCode (more.map .call ++ rest) = more ++ callCode rest
      rw [callCode_append, callCode_map]
    · rcases mem_append.mp hj with hj | hj
      · obtain ⟨k, hk, rfl⟩ := mem_map.mp hj
        exact .inr ⟨c, more, k, rfl, hk, rfl⟩
      · exact .inl hj
  | stop c => exact ⟨rfl, rfl, fun j hj => (not_mem_nil hj).elim⟩

theorem informed_more {more : List FloorInstr} (hgo : FloorState.Goes s.calls i more) :
    ∀ k ∈ more, Informed s (.call k) := by
  intro k hk
  cases hgo with
  | done => cases hk
  | plan | harden | commit | reclaim | hardened | committed | selected =>
    cases mem_singleton.mp hk
    trivial
  | staged stored =>
    simp only [mem_cons, not_mem_nil, or_false] at hk
    rcases hk with rfl | rfl <;> trivial
  | bounded beforeSeq match_ now =>
    simp only [mem_cons, not_mem_nil, or_false] at hk
    rcases hk with rfl | rfl | rfl | rfl | rfl
    · trivial
    · trivial
    · trivial
    · exact le_rfl
    · trivial

variable {o' : Outcome FloorState FloorInstr} {q head earliest evictEarliest : Nat}
  {r : StoredRecord} {now : Int} {req : DiffRequest}

theorem grows_after {code : List FloorInstr} (hg : FloorState.Gated line s.calls)
    (hc : FloorState.TicketCode line s.calls.turn t (i :: code))
    (hsem : s.calls.sem t ok i = some o') : Grows s (s.after i o'.shared) :=
  ⟨(onward_of_sem hg hc hsem).head, subset_append_left _ _,
    (floors_le_of_sem hsem).involuntary⟩

theorem of_mem_stages {c : FloorState} {e : Nat × StoredRecord} (h : e ∈ stages c i) :
    ∃ stored k, i = .stage stored ∧ stored[k]? = some e.2 ∧ e.1 = c.topic.index.tail + k := by
  cases i with
  | stage stored =>
    obtain ⟨k, hk⟩ := mem_iff_getElem?.mp h
    obtain ⟨hseq, hrec⟩ := getElem?_zip_eq_some.mp hk
    have hlen := (List.getElem?_eq_some_iff.mp hrec).1
    rw [getElem?_range' hlen, Nat.one_mul] at hseq
    exact ⟨stored, k, rfl, hrec, (some.inj hseq).symm⟩
  | _ => cases h

theorem Told.mono {s' : ReadState} (h : Told spec.config node resolve s q r)
    (hdelivered : s.delivered ⊆ s'.delivered) (hremoved : s.removed ⊆ s'.removed)
    (hgaps : s.gaps ⊆ s'.gaps) :
    Told spec.config node resolve s' q r := by
  rcases h with ⟨req, hmem⟩ | hmem | hex | ⟨gap, hmem, hgap⟩
  · exact .inl ⟨req, hdelivered hmem⟩
  · exact .inr (.inl (hremoved hmem))
  · exact .inr (.inr (.inl hex))
  · exact .inr (.inr (.inr ⟨gap, hgaps hmem, hgap⟩))

/-- **A step of a call** changes nothing that the reader has been told. -/
theorem sound_call (h : Sound spec node resolve start line s) (hR : AllPresent s t (.call i))
    (hi : Informed s (.call i))
    (hc : FloorState.TicketCode line s.calls.turn t (i :: callCode rest))
    (hsem : s.calls.sem t ok i = some o') :
    Sound spec node resolve start (nextLine line s.calls t i) (s.after i o'.shared) := by
  have hon := onward_of_sem h.gated hc hsem
  have hlt := h.gated.lined.head_lt
  have hgrows := grows_after h.gated hc hsem
  refine ⟨(h.gated.step hc hsem).1, ?_, ?_, ?_, ?_, ?_⟩
  · exact (config_of_sem hsem).trans h.config
  · refine explained_step h.explained ?_ ?_ hsem
    · rintro beforeSeq match_ bound rfl
      have hle : bound ≤ s.calls.topic.headSeq + 1 := hi
      omega
    · rintro stored rfl
      exact hR
  · intro e he
    rcases mem_append.mp he with he | he
    · obtain ⟨htail, hlive⟩ := h.written e he
      refine ⟨htail.trans_le hon.tail, fun r hr => ?_⟩
      rcases hon.live e.1 r hr with hr | hle
      · exact hlive r hr
      · omega
    · obtain ⟨stored, k, rfl, hk, hseq⟩ := of_mem_stages he
      cases hsem
      have hlen := (List.getElem?_eq_some_iff.mp hk).1
      refine ⟨?_, fun r hr => ?_⟩
      · change e.1 < (s.calls.topic.index.pushAll stored).tail
        rw [tail_pushAll]
        omega
      · change (s.calls.topic.index.pushAll stored).live e.1 = some r at hr
        rw [live_pushAll, if_neg (by omega), hseq, Nat.add_sub_cancel_left, hk] at hr
        exact (some.inj (filter_eq_some_iff.mp hr).1).symm
  · have := h.cursor
    have := hon.head
    change s.cursor ≤ max start o'.shared.topic.headSeq
    omega
  · intro e he hstart hcursor
    rcases mem_append.mp he with he | he
    · exact (h.told e he hstart hcursor).mono (List.Subset.refl _) hgrows.removed (List.Subset.refl _)
    · -- a new record lies behind the reader
      obtain ⟨stored, k, -, -, hseq⟩ := of_mem_stages he
      have := h.cursor
      have hle : e.1 ≤ s.cursor := hcursor
      omega

/-! ### Pages -/

theorem deliver_or_excluded {b : TopicState} (hconfig : b.config = spec.config)
    (hdeleted : r.deleted = false) (hage : ttlExpired b.config.ttlMs now r.ts = false) :
    b.decision { req with node := node } now r = .deliver ∨ Excluded spec.config node r := by
  unfold decision evaluate
  rw [hage, hdeleted]
  simp only [Bool.false_eq_true, if_false]
  split
  · rename_i f n hfilter hnode
    split
    · rename_i haccepts
      right
      unfold nodeFilter at hfilter
      rw [hconfig] at hfilter
      split at hfilter
      · rename_i hdedupe
        exact ⟨hdedupe, f, n, hfilter, hnode, haccepts⟩
      · cases hfilter
    · exact .inl rfl
  · exact .inl rfl

theorem of_skipped {seqBase head earliest evictEarliest q : Nat}
    (hi : Informed s (.walk req now head earliest evictEarliest))
    (hahead : head < s.cursor → earliest ≤ s.cursor + 1) (hq : s.cursor < q)
    (hle : q ≤ (pageStart seqBase s.cursor head earliest evictEarliest).1) :
    q ∈ s.removed ∨
      ∃ gap ∈ (pageStart seqBase s.cursor head earliest evictEarliest).2, gap.1 ≤ q ∧ q ≤ gap.2 := by
  obtain ⟨-, -, hlost⟩ := hi
  unfold pageStart at hle ⊢
  split at hle
  · rename_i hgt
    have := hahead hgt
    simp only at hle
    omega
  · split at hle
    · rename_i hgap
      rw [if_neg (by assumption), if_pos hgap]
      simp only at hle
      rcases hlost q (by omega) (by omega) with hmem | hlt
      · exact .inl hmem
      · exact .inr ⟨_, mem_singleton_self _, by omega, by simp only; omega⟩
    · simp only at hle
      omega

/-- **A page** tells the reader about every record that its cursor passes. -/
theorem sound_page (h : Sound spec node resolve start line s)
    (hR : AllPresent s t (.walk req now head earliest evictEarliest))
    (hi : Informed s (.walk req now head earliest evictEarliest)) :
    Sound spec node resolve start line (s.page node resolve req now head earliest evictEarliest) := by
  obtain ⟨hahead, hpresent⟩ := hR
  have hskip := @of_skipped s now req s.calls.topic.seqBase head earliest evictEarliest
  have hstart : (pageStart s.calls.topic.seqBase s.cursor head earliest evictEarliest).1 ≤
      max s.cursor s.calls.topic.headSeq := by
    have := hi.2.1
    unfold pageStart
    split
    · simp only
      omega
    · split <;> simp only <;> omega
  unfold page
  simp only
  generalize hpage : pageStart s.calls.topic.seqBase s.cursor head earliest evictEarliest = p at *
  obtain ⟨first, gaps⟩ := p
  simp only at hskip hstart hpresent ⊢
  have hwalk := @walked_diffWalk s.calls.topic resolve { req with node := node } now (head - first)
    ⟨[], 0, first, 0⟩
  have hnext := hwalk.hi
  simp only at hnext
  refine { h with cursor := ?_, told := fun e he hlo hhi => ?_ }
  · have := h.cursor
    have := hi.1
    simp only
    omega
  · simp only at hhi
    by_cases hold : e.1 ≤ s.cursor
    · exact (h.told e he hlo hold).mono (subset_append_left _ _) (List.Subset.refl _)
        (subset_append_left _ _)
    by_cases hpassed : e.1 ≤ first
    · rcases hskip hi hahead (by omega) hpassed with hmem | ⟨gap, hmem, hgap⟩
      · exact .inr (.inl hmem)
      · exact .inr (.inr (.inr ⟨gap, mem_append_right _ hmem, hgap⟩))
    -- the walk came by: the record was there
    rcases hpresent e.1 (mem_range'_1.mpr (by omega)) with hmem | hlive
    · exact .inr (.inl hmem)
    · cases hr : s.calls.topic.index.live e.1 with
      | none =>
        rw [hr] at hlive
        cases hlive
      | some r =>
        rw [hr, any_some, Bool.not_eq_true'] at hlive
        obtain ⟨hget, hdeleted⟩ := live_eq_some.mp hr
        obtain rfl := (h.written e he).2 r hr
        rcases @deliver_or_excluded spec node _ now req _ h.config hdeleted hlive with hd | hex
        · exact .inl ⟨_, mem_append_right _ (hwalk.mem hget hd (not_le.mp hpassed) hhi)⟩
        · exact .inr (.inr (.inl hex))

/-- **One step** keeps what the reader has been told and what every thread has read. -/
theorem keepsWith_allPresent :
    Threads.KeepsWith AllPresent (Sound spec node resolve start) SoundCode
    (sem node resolve) := by
  intro line s t ok i rest o hR h hc hsem
  have hi := hc.informed i mem_cons_self
  have hrest : ∀ {s'}, Grows s s' → ∀ j ∈ rest, Informed s' j := fun hg j hj =>
    (hc.informed j (mem_cons_of_mem i hj)).mono hg
  -- a read changes nothing but the code of its thread
  have hread : ∀ {j}, o = .next s [j] → callCode [j] = [] → callCode (i :: rest) = callCode rest →
      Informed s j → ∃ line', Sound spec node resolve start line' o.shared ∧
        SoundCode line' o.shared t (o.code rest) ∧
        ∀ t' code, t' ≠ t → SoundCode line s t' code → SoundCode line' o.shared t' code := by
    rintro j rfl hj hcode hinformed
    refine ⟨line, h, ⟨?_, ?_⟩, fun _ _ _ hcode => hcode⟩
    · change FloorState.TicketCode line s.calls.turn t (callCode ([j] ++ rest))
      rw [callCode_append, hj, nil_append, ← hcode]
      exact hc.ticket
    · exact forall_mem_append.mpr ⟨forall_mem_singleton.mpr hinformed, hrest (Grows.refl s)⟩
  cases i with
  | call i =>
    obtain ⟨o', ho', hshared, hcode, hmore⟩ := @call_cases node resolve s t ok i rest o hsem
    have hticket : FloorState.TicketCode line s.calls.turn t (i :: callCode rest) := hc.ticket
    have hgrows := grows_after h.gated hticket ho'
    obtain ⟨-, hown, hothers⟩ := h.gated.step hticket ho'
    rw [hshared]
    refine ⟨nextLine line s.calls t i, sound_call h hR hi hticket ho',
      ⟨by rw [hcode]; exact hown, fun j hj => ?_⟩, fun t' code hne hcode' => ⟨?_, fun j hj => ?_⟩⟩
    · rcases hmore j hj with hj | ⟨c, more, k, rfl, hk, rfl⟩
      · exact hrest hgrows j hj
      · exact (informed_more (goes_of_sem ho') k hk).mono hgrows
    · exact hothers t' _ hne hcode'.ticket
    · exact (hcode'.informed j hj).mono hgrows
  | loadHead req now =>
    obtain ⟨-, ⟨⟩⟩ := ite_none_right_eq_some.mp hsem
    exact hread rfl rfl rfl le_rfl
  | loadEarliest req now head =>
    cases hsem
    exact hread rfl rfl rfl ⟨hi, le_rfl⟩
  | loadFloors req now head head' =>
    cases hsem
    refine hread rfl rfl rfl ⟨hi.1, hi.2, fun q hpos hq => ?_⟩
    exact h.explained.below_earliestSeq hpos hq
  | loadBase req now head head' floorEarliest =>
    cases hsem
    refine hread rfl rfl rfl ⟨hi.1, ?_, fun q hpos hq => ?_⟩
    · have := hi.2.1
      omega
    · by_cases hfloor : q < floorEarliest
      · exact hi.2.2 q hpos hfloor
      · exact h.explained.below_base hpos (by omega)
  | loadEvictEarliest req now head earliest =>
    cases hsem
    refine hread rfl rfl rfl ⟨hi.1, hi.2.1, fun q hpos hq => ?_⟩
    refine (hi.2.2 q hpos hq).imp_right fun hle => ?_
    have := hi.2.1
    unfold evictEarliestSeq Floors.evictEarliest
    omega
  | walk req now head earliest evictEarliest =>
    cases hsem
    have hgrows : Grows s (s.page node resolve req now head earliest evictEarliest) :=
      ⟨le_rfl, List.Subset.refl _, le_rfl⟩
    exact ⟨line, sound_page h hR hi, ⟨hc.ticket, hrest hgrows⟩,
      fun t' code _ hcode => ⟨hcode.ticket, fun j hj => (hcode.informed j hj).mono hgrows⟩⟩

end Step

/-! ## Every interleaving -/

/-- The calls of a topic and the pages of its reader in any interleaving. -/
def step (node : Option NodeFilter) (resolve : Nat → Value × Option Value)
    (s : Threads ReadState ReadInstr) (a : ThreadAction ReadCall Bool) :
    Option (Threads ReadState ReadInstr) :=
  Threads.step ReadCall.body (sem node resolve) s a

def start (spec : TopicSpec) (cursor : Nat) : Threads ReadState ReadInstr :=
  ⟨init spec cursor, fun _ => []⟩

theorem soundCode_body (line : List (Nat × Option StagedAppend)) (s : ReadState) (t : Nat)
    (c : ReadCall) : SoundCode line s t c.body := by
  cases c with
  | call c =>
    refine ⟨?_, fun i hi => ?_⟩
    · change FloorState.TicketCode line s.calls.turn t (callCode (c.body.map .call))
      rw [callCode_map]
      exact ticketCode_body line s.calls.turn t c
    · obtain ⟨j, hj, rfl⟩ := mem_map.mp hi
      cases c with
      | write | diff | ack | delete =>
        simp only [FloorCall.body, mem_cons, not_mem_nil, or_false] at hj
        rcases hj with rfl | rfl | rfl | rfl | rfl <;> trivial
      | claim moved now =>
        rcases mem_cons.mp hj with rfl | hj
        · trivial
        · obtain ⟨q, -, rfl⟩ := mem_map.mp hj
          trivial
  | page req now =>
    refine ⟨.free (forall_mem_singleton.mpr id), fun i hi => ?_⟩
    simp only [ReadCall.body, mem_cons, not_mem_nil, or_false] at hi
    rcases hi with rfl | rfl <;> trivial

theorem sound_init (spec : TopicSpec) (node : Option NodeFilter)
    (resolve : Nat → Value × Option Value) (cursor : Nat) :
    Sound spec node resolve cursor [] (init spec cursor) := by
  refine ⟨gated_init spec, rfl, ⟨le_rfl, fun q hpos hq => ?_, fun q hpos hq => ?_,
    fun q hpos hq => ?_⟩, forall_mem_nil _, le_max_left _ _, forall_mem_nil _⟩
  · have hlt : q < 1 := hq
    omega
  · have hle : q ≤ 0 := hq
    omega
  · have hlt : q < 0 := hq
    omega

/-- A topic that keeps records for five milliseconds. -/
def shortLived : TopicSpec := ⟨"jobs", 1, { durable := true, ttlMs := 5 }, 0⟩

def stamped (ts : Int) : StoredRecord := { StoredRecord.plain none with ts := ts }

/-- `n` steps of thread `t`, every fsync of which succeeds. -/
def runs (t n : Nat) : List (ThreadAction ReadCall Bool) := List.replicate n (.run t true)

/-- The reader gets one record, the second one expires when a third is written, and the next page
reports it. -/
def expiredBetweenPages : List (ThreadAction ReadCall Bool) :=
  .start 1 (.call (.write [stamped 0, stamped 0] 0)) :: runs 1 9 ++
  .start 0 (.page { limit := 1 } 1) :: runs 0 9 ++
  .start 1 (.call (.write [stamped 9] 9)) :: runs 1 13 ++
  .start 0 (.page {} 9) :: runs 0 9

/-- A write takes its timestamp at 0 and stages its record behind one that was stamped at 10. -/
def stagedLate : List (ThreadAction ReadCall Bool) :=
  .start 1 (.call (.write [stamped 0] 0)) :: runs 1 2 ++
  .start 2 (.call (.write [stamped 10] 10)) :: runs 2 9 ++ runs 1 7 ++
  .start 0 (.page {} 10) :: runs 0 9

end ReadState

end Topics
