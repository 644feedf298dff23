import Mathlib.Data.List.Sort
import Mathlib.Data.Prod.Lex
import Mathlib.Order.BooleanAlgebra.Basic
import Topics.Lib.Buckets
import Topics.Replay

/-!
# The order in which recovery applies the frames of several WAL groups

`recover_and_open_with` (`engine/recovery.rs`) reads the WAL group by group.  The frames of a
topic that lies in one group are applied as they are read.  The frames of a *split* topic are
buffered and applied at the end, its groups ordered by the lowest `Append` seq they hold.
-/

namespace Topics

open Lib List Function WalRecord

variable {Blob : Type}

/-- A frame with the group it lies in and its position there. -/
structure Placed (Blob : Type) where
  go : Nat
  idx : Nat
  frame : WalRecord Blob

/-- The frames behind the checkpoints in the order the groups are read. -/
def scan (groups : List (List (WalRecord Blob))) : List (Placed Blob) :=
  groups.zipIdx.flatMap fun g => g.1.zipIdx.map fun f => ⟨g.2, f.2, f.1⟩

/-- `find_split_topics`: whether the topic has frames in more than one group. -/
def isSplit (groups : List (List (WalRecord Blob))) (id : Nat) : Bool :=
  id ≠ 0 ∧ 1 < groups.countP fun g => g.any fun f => f.topicId = id

/-- The `Append` seqs among the frames of a group. -/
def groupSeqs (frames : List (Placed Blob)) (go : Nat) : List Nat :=
  frames.filterMap fun e => if e.go = go then e.frame.appendSeq? else none

/-- The lowest `Append` seq of a group. -/
def minSeq (frames : List (Placed Blob)) (go : Nat) : Option Nat := (groupSeqs frames go).min?

/-- The sort key of `replay_split_topics`. -/
def splitKey (frames : List (Placed Blob)) (e : Placed Blob) : Bool ×ₗ Nat ×ₗ Nat ×ₗ Nat :=
  let rank := minSeq frames e.go
  toLex (rank.isNone, toLex (rank.getD 0, toLex (e.go, e.idx)))

/-- One topic of `replay_split_topics`: its buffered frames, sorted by key. -/
def replaySplit (frames : List (Placed Blob)) : List (Placed Blob) :=
  frames.insertionSort fun x y => splitKey frames x ≤ splitKey frames y

/-- All frames in the order they are applied.  `order` is the iteration order of the map of
split topics. -/
def replayOrder (groups : List (List (WalRecord Blob))) (order : List Nat) :
    List (Placed Blob) :=
  ((scan groups).filter fun e => !isSplit groups e.frame.topicId) ++
    order.flatMap fun id => replaySplit ((scan groups).filter fun e => e.frame.topicId = id)

/-! ## The log behind the groups -/

/-- The frames in the order they were logged, each placed behind the ones its group already
holds (`held`). -/
def place (held : Nat → Nat) : List (Nat × WalRecord Blob) → List (Placed Blob)
  | [] => []
  | (g, f) :: history => ⟨g, held g, f⟩ :: place (update held g (held g + 1)) history

def groupsOf (n : Nat) (history : List (Nat × WalRecord Blob)) : List (List (WalRecord Blob)) :=
  (List.range n).map fun g => (history.filter fun e => e.1 = g).map Prod.snd

theorem place_filter_go (held : Nat → Nat) (history : List (Nat × WalRecord Blob)) (g : Nat) :
    (place held history).filter (fun e => e.go = g) =
      (((history.filter fun e => e.1 = g).map Prod.snd).zipIdx (held g)).map
        fun f => ⟨g, f.2, f.1⟩ := by
  induction history generalizing held with
  | nil => rfl
  | cons e history ih =>
    obtain ⟨g', f⟩ := e
    by_cases h : g' = g
    · subst h
      simp [place, ih]
    · simp [place, ih, h, update_of_ne (Ne.symm h)]

theorem scan_groupsOf (n : Nat) (history : List (Nat × WalRecord Blob)) :
    scan (groupsOf n history) = buckets Placed.go n (place (fun _ => 0) history) := by
  have hzip : (groupsOf n history).zipIdx = (range n).map fun g =>
      ((history.filter fun e => e.1 = g).map Prod.snd, g) := by
    refine ext_getElem (by simp [groupsOf]) fun i hi hi' => ?_
    simp [groupsOf]
  unfold scan buckets
  rw [hzip, flatMap_map]
  refine flatMap_congr fun g _ => ?_
  rw [place_filter_go]

theorem place_pairwise (held : Nat → Nat) (history : List (Nat × WalRecord Blob)) :
    (place held history).Pairwise (fun x y => x.go = y.go → x.idx < y.idx) ∧
      ∀ e ∈ place held history, held e.go ≤ e.idx := by
  induction history generalizing held with
  | nil => exact ⟨List.Pairwise.nil, nofun⟩
  | cons e history ih =>
    obtain ⟨g, f⟩ := e
    obtain ⟨hpair, hheld⟩ := ih (update held g (held g + 1))
    refine ⟨pairwise_cons.mpr ⟨fun y hy hgo => ?_, hpair⟩, ?_⟩
    · have := hheld y hy
      simp only at hgo
      rw [← hgo, update_self] at this
      exact this
    · intro y hy
      rcases mem_cons.mp hy with rfl | hy
      · exact le_rfl
      · have := hheld y hy
        by_cases hg : y.go = g
        · rw [hg, update_self] at this
          rw [hg]
          omega
        · rw [update_of_ne hg] at this
          exact this

variable {history : List (Nat × WalRecord Blob)} {frames logged : List (Placed Blob)}
  {x y : Placed Blob}

theorem place_go_lt {n : Nat} (h : ∀ e ∈ history, e.1 < n) (held : Nat → Nat) :
    ∀ e ∈ place held history, e.go < n := by
  induction history generalizing held with
  | nil => intro e he; cases he
  | cons e history ih =>
    intro x hx
    rcases mem_cons.mp hx with rfl | hx
    · exact h e mem_cons_self
    · exact ih (fun y hy => h y (mem_cons_of_mem e hy)) _ x hx

theorem mem_of_mem_place {held : Nat → Nat} {e : Placed Blob} (h : e ∈ place held history) :
    (e.go, e.frame) ∈ history := by
  induction history generalizing held with
  | nil => cases h
  | cons x history ih =>
    rcases mem_cons.mp h with rfl | h
    · exact mem_cons_self
    · exact mem_cons_of_mem x (ih h)

/-! ## The sort key -/

/-- Group `g` replays before group `g'`: it holds an `Append` below all of those of `g'`, or
neither holds one and `g` is read first. -/
def Precedes (frames : List (Placed Blob)) (g g' : Nat) : Prop :=
  (∃ m ∈ groupSeqs frames g, ∀ k ∈ groupSeqs frames g', m < k ∨ m = k ∧ g < g') ∨
    groupSeqs frames g = [] ∧ groupSeqs frames g' = [] ∧ g < g'

theorem splitKey_le_of_go_eq (h : x.go = y.go) :
    splitKey frames x ≤ splitKey frames y ↔ x.idx ≤ y.idx := by
  unfold splitKey
  rw [h]
  simp [Prod.Lex.toLex_le_toLex]

theorem splitKey_le_of_go_ne (h : x.go ≠ y.go) :
    splitKey frames x ≤ splitKey frames y ↔ Precedes frames x.go y.go := by
  unfold splitKey Precedes minSeq
  cases hx : (groupSeqs frames x.go).min? with
  | none =>
    have hx' := min?_eq_none_iff.mp hx
    cases hy : (groupSeqs frames y.go).min? with
    | none => simp [Prod.Lex.toLex_le_toLex, h, hx', min?_eq_none_iff.mp hy]
    | some k =>
      have hy' : groupSeqs frames y.go ≠ [] := fun hn => by simp [hn] at hy
      simp [Prod.Lex.toLex_le_toLex, hx', hy']
  | some m =>
    obtain ⟨hm, hmin⟩ := min?_eq_some_iff.mp hx
    have hx' : groupSeqs frames x.go ≠ [] := ne_nil_of_mem hm
    cases hy : (groupSeqs frames y.go).min? with
    | none =>
      rw [min?_eq_none_iff.mp hy, Prod.Lex.toLex_le_toLex]
      exact ⟨fun _ => Or.inl ⟨m, hm, nofun⟩, fun _ => Or.inl Bool.false_lt_true⟩
    | some k =>
      obtain ⟨hk, hkmin⟩ := min?_eq_some_iff.mp hy
      simp only [Option.isNone_some, Option.getD_some, Prod.Lex.toLex_le_toLex, lt_self_iff_false,
        false_or, true_and, hx', false_and, or_false]
      constructor
      · rintro (hlt | ⟨rfl, hgo⟩)
        · exact ⟨m, hm, fun j hj => Or.inl (hlt.trans_le (hkmin j hj))⟩
        · have hgo' : x.go < y.go := by simpa [h] using hgo
          refine ⟨m, hm, fun j hj => ?_⟩
          rcases Nat.lt_or_eq_of_le (hkmin j hj) with hlt | heq
          · exact Or.inl hlt
          · exact Or.inr ⟨heq, hgo'⟩
      · rintro ⟨i, hi, hall⟩
        have hmi := hmin i hi
        rcases hall k hk with hlt | ⟨heq, hgo⟩
        · exact Or.inl (hmi.trans_lt hlt)
        · rcases Nat.lt_or_eq_of_le hmi with hlt | heq'
          · exact Or.inl (lt_of_lt_of_eq hlt heq)
          · exact Or.inr ⟨heq'.trans heq, Or.inl hgo⟩

theorem splitKey_perm {l l' : List (Placed Blob)} (h : l.Perm l') : splitKey l = splitKey l' := by
  have hmin : ∀ go, minSeq l go = minSeq l' go := by
    intro go
    have hperm : (groupSeqs l go).Perm (groupSeqs l' go) := h.filterMap _
    refine Option.ext fun m => ?_
    unfold minSeq
    rw [min?_eq_some_iff, min?_eq_some_iff]
    simp only [hperm.mem_iff]
  funext e
  unfold splitKey
  rw [hmin]

/-! ## Applied order and logged order -/

/-- The frames of a topic replay in logged order iff the groups of any two of them come in
that order. -/
def KeepsOrder (logged : List (Placed Blob)) : Prop :=
  logged.Pairwise fun x y => x.go ≠ y.go → Precedes logged x.go y.go

theorem eq_of_same_place (hpos : logged.Pairwise fun x y => x.go = y.go → x.idx < y.idx)
    (hx : x ∈ logged) (hy : y ∈ logged) (hgo : x.go = y.go) (hidx : x.idx = y.idx) : x = y := by
  obtain ⟨i, hi, rfl⟩ := mem_iff_getElem.mp hx
  obtain ⟨j, hj, rfl⟩ := mem_iff_getElem.mp hy
  rcases Nat.lt_trichotomy i j with hij | rfl | hij
  · have := pairwise_iff_getElem.mp hpos i j hi hj hij hgo
    omega
  · rfl
  · have := pairwise_iff_getElem.mp hpos j i hj hi hij hgo.symm
    omega

theorem pairwise_replaySplit (buffer : List (Placed Blob)) :
    (replaySplit buffer).Pairwise fun x y => splitKey buffer x ≤ splitKey buffer y := by
  have : IsTrans (Placed Blob) fun x y => splitKey buffer x ≤ splitKey buffer y :=
    ⟨fun _ _ _ h h' => h.trans h'⟩
  have : Std.Total fun x y : Placed Blob => splitKey buffer x ≤ splitKey buffer y :=
    ⟨fun _ _ => le_total _ _⟩
  exact pairwise_insertionSort _ _

theorem perm_replaySplit (buffer : List (Placed Blob)) : (replaySplit buffer).Perm buffer :=
  perm_insertionSort _ _

theorem replaySplit_eq_iff {buffer logged : List (Placed Blob)} (hperm : buffer.Perm logged)
    (hpos : logged.Pairwise fun x y => x.go = y.go → x.idx < y.idx) :
    replaySplit buffer = logged ↔ KeepsOrder logged := by
  have hsorted : logged.Pairwise (fun x y => splitKey buffer x ≤ splitKey buffer y) ↔
      KeepsOrder logged := by
    rw [splitKey_perm hperm]
    unfold KeepsOrder
    constructor
    · intro hle
      exact hle.imp fun hxy hne => (splitKey_le_of_go_ne hne).mp hxy
    · intro hkeep
      refine (hkeep.and hpos).imp fun hxy => ?_
      rename_i x y
      by_cases hgo : x.go = y.go
      · exact (splitKey_le_of_go_eq hgo).mpr (le_of_lt (hxy.2 hgo))
      · exact (splitKey_le_of_go_ne hgo).mpr (hxy.1 hgo)
  rw [← hsorted]
  constructor
  · intro heq
    rw [← heq]
    exact pairwise_replaySplit buffer
  · intro hle
    have hperm' := (perm_replaySplit buffer).trans hperm
    refine List.Perm.eq_of_pairwise ?_ (pairwise_replaySplit buffer) hle hperm'
    intro x y hx hy hxy hyx
    have heq : splitKey buffer x = splitKey buffer y := le_antisymm hxy hyx
    simp only [splitKey, toLex_inj, Prod.mk.injEq] at heq
    exact eq_of_same_place hpos (hperm'.subset hx) hy heq.2.2.1 heq.2.2.2

section Recovery

variable {n : Nat} {history : List (Nat × WalRecord Blob)}

/-- The frames of one topic in the order they were logged. -/
def loggedFrames (history : List (Nat × WalRecord Blob)) (id : Nat) : List (Placed Blob) :=
  (place (fun _ => 0) history).filter fun e => e.frame.topicId = id

variable {id : Nat} {order : List Nat} {groups : List (List (WalRecord Blob))}

theorem isSplit_of_two_groups (hn : ∀ e ∈ history, e.1 < n) (hid : id ≠ 0) {x y : Placed Blob}
    (hx : x ∈ loggedFrames history id) (hy : y ∈ loggedFrames history id) (hgo : x.go ≠ y.go) :
    isSplit (groupsOf n history) id = true := by
  have hgroup : ∀ e ∈ loggedFrames history id, e.go ∈ (range n).filter fun g =>
      ((history.filter fun e => e.1 = g).map Prod.snd).any fun f => f.topicId = id := by
    intro e he
    obtain ⟨hmem, htopic⟩ := mem_filter.mp he
    have hhist := mem_of_mem_place hmem
    refine mem_filter.mpr ⟨mem_range.mpr (hn _ hhist), ?_⟩
    refine any_eq_true.mpr ⟨e.frame, mem_map.mpr ⟨(e.go, e.frame), ?_, rfl⟩, htopic⟩
    exact mem_filter.mpr ⟨hhist, by simp⟩
  -- the two groups are two elements of the list of groups that hold the topic
  have hlen : 2 ≤ ((range n).filter fun g =>
      ((history.filter fun e => e.1 = g).map Prod.snd).any fun f => f.topicId = id).length := by
    have hsub : [x.go, y.go].Subperm ((range n).filter fun g =>
        ((history.filter fun e => e.1 = g).map Prod.snd).any fun f => f.topicId = id) := by
      refine subperm_of_subset (by simpa using hgo) ?_
      intro g hg
      rcases mem_cons.mp hg with rfl | hg
      · exact hgroup x hx
      · rw [mem_singleton.mp hg]
        exact hgroup y hy
    exact hsub.length_le
  unfold isSplit groupsOf
  rw [countP_map, countP_eq_length_filter]
  exact decide_eq_true ⟨hid, hlen⟩

private theorem flatMap_eq_of_nodup {α : Type} (hnodup : order.Nodup) {f : Nat → List α}
    (hid : id ∈ order) (hf : ∀ i, i ≠ id → f i = []) :
    order.flatMap f = f id := by
  induction order with
  | nil => cases hid
  | cons i order ih =>
    obtain ⟨hi, hnodup⟩ := nodup_cons.mp hnodup
    rw [flatMap_cons]
    by_cases h : i = id
    · subst h
      have hrest : order.flatMap f = [] :=
        flatMap_eq_nil_iff.mpr fun j hj => hf j fun h => hi (h ▸ hj)
      rw [hrest, append_nil]
    · rw [hf i h, nil_append]
      exact ih hnodup ((mem_cons.mp hid).resolve_left (Ne.symm h))

theorem replayOrder_filter (hnodup : order.Nodup)
    (hmem : ∀ id, id ∈ order ↔ isSplit groups id = true) (id : Nat) :
    (replayOrder groups order).filter (fun e => e.frame.topicId = id) =
      if isSplit groups id then replaySplit ((scan groups).filter fun e => e.frame.topicId = id)
      else (scan groups).filter fun e => e.frame.topicId = id := by
  -- the pass of another topic contributes nothing
  have hother : ∀ i, i ≠ id → (replaySplit ((scan groups).filter fun e =>
      e.frame.topicId = i)).filter (fun e => e.frame.topicId = id) = [] := by
    intro i hi
    refine filter_eq_nil_iff.mpr fun e he hid => hi ?_
    have hbuf := (mem_filter.mp ((perm_replaySplit _).subset he)).2
    exact (of_decide_eq_true hbuf).symm.trans (of_decide_eq_true hid)
  unfold replayOrder
  rw [filter_append, filter_flatMap, filter_filter]
  by_cases hsplit : isSplit groups id = true
  · have hstream : (scan groups).filter (fun e => decide (e.frame.topicId = id) &&
        !isSplit groups e.frame.topicId) = [] := by
      refine filter_eq_nil_iff.mpr fun e _ h => ?_
      obtain ⟨hid, hno⟩ := Bool.and_eq_true_iff.mp h
      rw [of_decide_eq_true hid, hsplit] at hno
      cases hno
    rw [hstream, nil_append, if_pos hsplit,
      flatMap_eq_of_nodup hnodup ((hmem id).mpr hsplit) hother]
    refine filter_eq_self.mpr fun e he => ?_
    exact (mem_filter.mp ((perm_replaySplit _).subset he)).2
  · have hstream : (scan groups).filter (fun e => decide (e.frame.topicId = id) &&
        !isSplit groups e.frame.topicId) =
        (scan groups).filter fun e => e.frame.topicId = id := by
      refine filter_congr fun e _ => ?_
      by_cases hid : e.frame.topicId = id
      · simp [hid, hsplit]
      · simp [hid]
    have hnone : order.flatMap (fun i => (replaySplit ((scan groups).filter fun e =>
        e.frame.topicId = i)).filter fun e => e.frame.topicId = id) = [] :=
      flatMap_eq_nil_iff.mpr fun i hi => hother i fun h => hsplit ((hmem id).mp (h ▸ hi))
    rw [hstream, hnone, append_nil, if_neg hsplit]

theorem replayOrder_perm (hnodup : order.Nodup)
    (hmem : ∀ id, id ∈ order ↔ isSplit groups id = true) :
    (replayOrder groups order).Perm (scan groups) := by
  classical
  refine perm_iff_count.mpr fun e => ?_
  -- a frame is counted among the frames of its topic
  have hcount : ∀ l : List (Placed Blob),
      (l.filter fun x => x.frame.topicId = e.frame.topicId).count e = l.count e :=
    fun l => count_filter (decide_eq_true rfl)
  rw [← hcount, ← hcount (scan groups), replayOrder_filter hnodup hmem]
  split
  · exact (perm_replaySplit _).count_eq e
  · rfl

/-- **Logged order.**  For every history of frames over any number of groups, whatever the
iteration order of the split topics: the frames of a topic are applied in the order they were
logged iff, of any two frames in different groups, the group of the earlier one holds an
`Append` below all those of the other group, or neither group holds one and the group of the
earlier frame is read first. -/
theorem replayOrder_eq_logged_iff (hn : ∀ e ∈ history, e.1 < n) {order : List Nat}
    (hnodup : order.Nodup)
    (hmem : ∀ id, id ∈ order ↔ isSplit (groupsOf n history) id = true) {id : Nat}
    (hid : id ≠ 0) :
    (replayOrder (groupsOf n history) order).filter (fun e => e.frame.topicId = id) =
      loggedFrames history id ↔ KeepsOrder (loggedFrames history id) := by
  have hgo : ∀ e ∈ loggedFrames history id, e.go < n :=
    fun e he => place_go_lt hn _ e (mem_filter.mp he).1
  have hpos : (loggedFrames history id).Pairwise fun x y => x.go = y.go → x.idx < y.idx :=
    (place_pairwise _ history).1.filter _
  have hbuffer : (scan (groupsOf n history)).filter (fun e => e.frame.topicId = id) =
      buckets Placed.go n (loggedFrames history id) := by
    rw [scan_groupsOf, filter_buckets]
    rfl
  rw [replayOrder_filter hnodup hmem, hbuffer]
  by_cases hsplit : isSplit (groupsOf n history) id = true
  · rw [if_pos hsplit]
    exact replaySplit_eq_iff (buckets_perm hgo) hpos
  · -- all frames lie in one group, which is read in logged order
    rw [if_neg hsplit]
    have hone : ∀ x ∈ loggedFrames history id, ∀ y ∈ loggedFrames history id, x.go = y.go := by
      intro x hx y hy
      by_contra hne
      exact hsplit (isSplit_of_two_groups hn hid hx hy hne)
    have hread : buckets Placed.go n (loggedFrames history id) = loggedFrames history id := by
      refine buckets_eq_self hgo (List.Pairwise.imp_of_mem ?_ hpos)
      intro x y hx hy _
      exact le_of_eq (hone x hx y hy)
    refine iff_of_true hread (List.Pairwise.imp_of_mem ?_ hpos)
    intro x y hx hy _ hne
    exact absurd (hone x hx y hy) hne

end Recovery

def configFrame (config : TopicConfig) : WalRecord (Value ⊕ TopicConfig) :=
  .topicConfig 5 ⟨"events", .inr config⟩ false 0

/-- An `Append` frame of topic 5. -/
def eventFrame (seq : Nat) : WalRecord (Value ⊕ TopicConfig) :=
  .append 5 seq 0 none none (.inl .null)

/-- A topic that moved from group 1 to group 0 and appended under both layouts. -/
def movedHistory : List (Nat × WalRecord (Value ⊕ TopicConfig)) :=
  [(1, eventFrame 1), (0, configFrame {}), (0, eventFrame 2)]

/-- Its frames replay in logged order although the new group is read first. -/
theorem replayOrder_movedHistory :
    KeepsOrder (loggedFrames movedHistory 5) ∧
      ((replayOrder (groupsOf 2 movedHistory) [5]).filter (fun e => e.frame.topicId = 5) =
        loggedFrames movedHistory 5 ↔ KeepsOrder (loggedFrames movedHistory 5)) := by
  refine ⟨?_, replayOrder_eq_logged_iff (by decide) (by decide) (fun id => ?_) (by decide)⟩
  · simp [KeepsOrder, loggedFrames, movedHistory, place, eventFrame, configFrame, Precedes,
      groupSeqs, topicId, appendSeq?, update]
  · by_cases h : id = 5
    · subst h
      decide
    · simp [isSplit, groupsOf, movedHistory, eventFrame, configFrame, topicId, h,
        range_succ, Ne.symm h]

/-- **A control fragment replays late.**  Under one shard (group 0) the topic only got a config
update, under two shards (group 1) another one and its first record.  Recovery applies the
frames of group 1 first because only that group holds an `Append`, so the older config is
applied last and wins. -/
theorem control_fragment_replayed_late :
    let history := [(0, configFrame { capRecords := 1 }), (1, configFrame { capRecords := 2 }),
      (1, eventFrame 1)]
    isSplit (groupsOf 2 history) 5 = true ∧
      (loggedFrames history 5).map (fun e => (e.go, e.idx)) = [(0, 0), (1, 0), (1, 1)] ∧
      ((replayOrder (groupsOf 2 history) [5]).filter fun e => e.frame.topicId = 5).map
        (fun e => (e.go, e.idx)) = [(1, 0), (1, 1), (0, 0)] := by
  decide

end Topics
