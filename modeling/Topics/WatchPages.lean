import Topics.SourceTrims

/-!
# What a watcher is shown

A watch stream reads a topic page by page.  A page delivers what the read pipeline lets through,
and its tombstone names what retention took away below it.
-/

namespace Topics

open TopicIndex

theorem ttlExpired_mono {ttlMs : Nat} {now now' ts : Int} (hle : now ≤ now')
    (h : ttlExpired ttlMs now' ts = false) : ttlExpired ttlMs now ts = false := by
  simp only [ttlExpired, decide_eq_false_iff_not, not_and, Int.not_lt, gt_iff_lt] at h ⊢
  intro hpos
  refine le_trans ?_ (h hpos)
  unfold i64SaturatingSub
  omega

namespace TopicState

variable {b b' b'' : TopicState} {req : DiffRequest} {now now' : Int} {q : Nat}

theorem visible_iff {r : StoredRecord} : b.Visible q r ↔
    b.index.live q = some r ∧ q ≤ b.headSeq ∧ b.floors.top < q ∧ b.seqBase ≤ q := by
  constructor
  · rintro ⟨hlive, hhead, hfloor⟩
    unfold earliestSeq Floors.earliestSeq at hfloor
    exact ⟨hlive, hhead, by omega, by omega⟩
  · rintro ⟨hlive, hhead, htop, hbase⟩
    refine ⟨hlive, hhead, ?_⟩
    have := base_le_of_get (live_eq_some.mp hlive).1
    unfold earliestSeq Floors.earliestSeq
    omega

/-- The record at `q` is visible, and a reader with these filters is given it. -/
def Shown (b : TopicState) (req : DiffRequest) (now : Int) (q : Nat) : Prop :=
  ∃ r, b.Visible q r ∧ b.decision req now r = .deliver

theorem decision_mono {r : StoredRecord} (hconfig : b'.config = b.config) (hle : now ≤ now')
    (h : b'.decision req now' r = .deliver) : b.decision req now r = .deliver := by
  unfold decision evaluate nodeFilter at h ⊢
  rw [hconfig] at h
  cases hexp : ttlExpired b.config.ttlMs now' r.ts with
  | true =>
    rw [hexp] at h
    cases h
  | false =>
    rw [ttlExpired_mono hle hexp]
    rw [hexp] at h
    exact h

/-! ## Calls on a topic -/

def Level (b : TopicState) : Prop := b.index.tail = b.headSeq + 1

/-- A call: what is visible at an old seq was visible before. -/
structure Fades (b b' : TopicState) : Prop where
  config : b'.config = b.config
  head : b.headSeq ≤ b'.headSeq
  visible : ∀ q r, q ≤ b.headSeq → b'.Visible q r → b.Visible q r
  level : b.Level → b'.Level

namespace Fades

theorem refl (b : TopicState) : Fades b b := ⟨rfl, le_rfl, fun _ _ _ => id, id⟩

theorem trans (h : Fades b b') (h' : Fades b' b'') : Fades b b'' :=
  ⟨h'.config.trans h.config, h.head.trans h'.head,
    fun q r hq hv => h.visible q r hq (h'.visible q r (hq.trans h.head) hv), fun hl => h'.level (h.level hl)⟩

theorem shown (h : Fades b b') (hle : now ≤ now') (hq : q ≤ b.headSeq)
    (hs : b'.Shown req now' q) : b.Shown req now q := by
  obtain ⟨r, hv, hd⟩ := hs
  exact ⟨r, h.visible q r hq hv, decision_mono h.config hle hd⟩

theorem of_steady (hsteady : b.Steady b') (hshrinks : b.Shrinks b') (hfloors : b.floors.Le b'.floors) :
    Fades b b' := by
  refine ⟨hsteady.config, hsteady.headSeq.ge, fun q r hq hv => ?_, fun hl => ?_⟩
  · obtain ⟨hlive, -, htop, hbase⟩ := visible_iff.mp hv
    have := hfloors.top
    rw [hsteady.seqBase] at hbase
    exact visible_iff.mpr ⟨hshrinks q r hlive, hq, by omega, hbase⟩
  · unfold Level
    rw [hsteady.tail, hsteady.headSeq]
    exact hl

theorem enforceRetention (b : TopicState) (now : Int) : Fades b (b.enforceRetention now) :=
  of_steady (steady_enforceRetention b now) (shrinks_enforceRetention b now)
    (floors_le_enforceRetention b now)

theorem append (hl : b.Level) (rs : List StoredRecord) : Fades b (b.append rs) := by
  have hhead := append_headSeq hl rs
  refine ⟨append_config b rs, by omega, fun q r hq hv => ?_, fun _ => ?_⟩
  · obtain ⟨hlive, -, htop, hbase⟩ := visible_iff.mp hv
    unfold Level at hl
    rw [append_index, live_pushAll, if_pos (by omega)] at hlive
    rw [append_floors] at htop
    rw [append_seqBase] at hbase
    exact visible_iff.mpr ⟨hlive, hq, htop, hbase⟩
  · unfold Level at hl ⊢
    rw [append_index, tail_pushAll, hhead]
    omega

theorem noteSourceTrim (hl : b.Level) : Fades b b.noteSourceTrim := by
  unfold Level at hl
  refine ⟨rfl, ?_, fun q r hq hv => ?_, fun _ => ?_⟩
  · simp only [TopicState.noteSourceTrim, stageAppend]
    omega
  · obtain ⟨hlive, -, htop, hbase⟩ := visible_iff.mp hv
    simp only [TopicState.noteSourceTrim, stageAppend] at hlive htop hbase
    rw [live_pushAll, if_pos (by omega)] at hlive
    refine visible_iff.mpr ⟨hlive, hq, ?_, hbase⟩
    unfold Floors.top at htop ⊢
    simp only at htop
    omega
  · unfold Level
    simp [TopicState.noteSourceTrim, stageAppend, tail_pushAll]

end Fades

/-! ## One page -/

theorem shown_enforceRetention (h : b.Shown req now q) :
    (b.enforceRetention now).Shown req now q ∨ q < (b.enforceRetention now).evictEarliestSeq := by
  obtain ⟨r, hv, hd⟩ := h
  obtain ⟨hlive, hhead, htop, hbase⟩ := visible_iff.mp hv
  have hsteady := steady_enforceRetention b now
  by_cases hq : (b.enforceRetention now).floors.top < q
  · refine .inl ⟨r, visible_iff.mpr ⟨?_, ?_, hq, ?_⟩, ?_⟩
    · rw [live_enforceRetention_of_top_lt hbase hq]
      exact hlive
    · rw [hsteady.headSeq]
      exact hhead
    · rw [hsteady.seqBase]
      exact hbase
    · exact decision_mono hsteady.config.symm le_rfl hd
  · right
    cases hidle : b.retentionIdle with
    | true =>
      rw [TopicState.enforceRetention, if_pos hidle] at hq
      exact absurd htop hq
    | false =>
      have hfloors := enforceRetention_floors hidle now
      unfold evictEarliestSeq Floors.evictEarliest Floors.involuntary
      rw [hsteady.headSeq, hsteady.seqBase]
      rw [hfloors] at hq ⊢
      unfold Floors.top at hq htop
      simp only at hq ⊢
      omega

theorem diffCursor_bounds (req : DiffRequest) {c : Nat} (hc : c ≤ b.headSeq) :
    c ≤ b.diffCursor { req with fromSeq := c } ∧ b.diffCursor { req with fromSeq := c } ≤ b.headSeq := by
  refine ⟨?_, b.diffCursor_le _⟩
  unfold diffCursor
  simp only
  split
  · omega
  · split <;> omega

theorem diff_le_headSeq (resolve : Nat → Value × Option Value) (req : DiffRequest) (now : Int) {c : Nat}
    (hc : c ≤ b.headSeq) :
    c ≤ (b.diff resolve { req with fromSeq := c } now).nextFromSeq ∧
      (b.diff resolve { req with fromSeq := c } now).nextFromSeq ≤ b.headSeq := by
  have hcur := diffCursor_bounds req hc
  have hwalk := b.walked_diff resolve { req with fromSeq := c } now
  have hlo := hwalk.lo
  have hhi := hwalk.hi
  simp only at hlo hhi
  omega

section Page

variable {resolve : Nat → Value × Option Value} {c : Nat}

theorem caughtUp_of_records_nil (hc : c ≤ b.headSeq)
    (h : (b.diff resolve { req with fromSeq := c } now).records = []) :
    (b.diff resolve { req with fromSeq := c } now).nextFromSeq = b.headSeq := by
  have hcur := b.diffCursor_le { req with fromSeq := c }
  refine le_antisymm (diff_le_headSeq resolve req now hc).2 (not_lt.mp fun hlt => ?_)
  refine (b.walked_diff resolve { req with fromSeq := c } now).stop ?_ h
  simp only
  omega

theorem lt_nextFromSeq_of_lt (hc : c ≤ b.headSeq)
    (h : (b.diff resolve { req with fromSeq := c } now).nextFromSeq < b.headSeq) :
    c < (b.diff resolve { req with fromSeq := c } now).nextFromSeq := by
  have hwalk := b.walked_diff resolve { req with fromSeq := c } now
  have hlo := hwalk.lo
  simp only at hlo
  exact lt_of_le_of_lt (diffCursor_bounds req hc).1 (hwalk.progress rfl (by omega))

theorem mem_diff_of_shown (hs : b.Shown req now q) (hc : c < q)
    (hq : q ≤ (b.diff resolve { req with fromSeq := c } now).nextFromSeq) :
    ∃ o ∈ (b.diff resolve { req with fromSeq := c } now).records, o.seq = q := by
  obtain ⟨r, hv, hd⟩ := hs
  rcases mem_diff_or_lt resolve hv.live hv.head hv.floor hd hc with hmem | ⟨-, hlt⟩
  · exact ⟨_, hmem, rfl⟩
  · omega

theorem diffTombstone_of_le (req : DiffRequest) (hc : c ≤ b.headSeq) :
    (∃ t, b.diffTombstone { req with fromSeq := c } = some t ∧ t.gapFrom = c + 1 ∧
        t.gapTo + 1 = b.evictEarliestSeq ∧ c + 1 < b.evictEarliestSeq) ∨
      b.diffTombstone { req with fromSeq := c } = none ∧ b.evictEarliestSeq ≤ c + 1 := by
  unfold diffTombstone
  simp only
  rw [if_neg hc.not_gt]
  split
  · rename_i hlt
    refine .inl ⟨_, rfl, rfl, ?_, hlt⟩
    simp only [buildTombstone]
    omega
  · exact .inr ⟨rfl, by omega⟩

/-- **One page.**  Behind the retention pass a shown record above the cursor is covered by the
tombstone, delivered, or still shown above the end of the page. -/
theorem page_tells (resolve : Nat → Value × Option Value) (hs : b.Shown req now q) (hc : c < q) :
    (∃ t, (b.enforceRetention now).diffTombstone { req with fromSeq := c } = some t ∧
        t.gapFrom ≤ q ∧ q ≤ t.gapTo) ∨
      (∃ o ∈ ((b.enforceRetention now).diff resolve { req with fromSeq := c } now).records,
        o.seq = q) ∨
      ((b.enforceRetention now).diff resolve { req with fromSeq := c } now).nextFromSeq < q ∧
        (b.enforceRetention now).Shown req now q := by
  have hhead : q ≤ b.headSeq := hs.elim fun _ h => h.1.head
  have hc' : c ≤ (b.enforceRetention now).headSeq := by
    rw [(steady_enforceRetention b now).headSeq]
    omega
  rcases shown_enforceRetention hs with hs' | hevict
  · by_cases hq : q ≤ ((b.enforceRetention now).diff resolve { req with fromSeq := c } now).nextFromSeq
    · exact .inr (.inl (mem_diff_of_shown hs' hc hq))
    · exact .inr (.inr ⟨not_le.mp hq, hs'⟩)
  · left
    rcases diffTombstone_of_le req hc' with ⟨t, ht, hfrom, hto, -⟩ | ⟨-, hle⟩
    · exact ⟨t, ht, by omega, by omega⟩
    · omega

theorem not_shown_of_lt_evictEarliestSeq (h : q < b.evictEarliestSeq) : ¬ b.Shown req now q := by
  rintro ⟨r, hv, -⟩
  have := b.evictEarliestSeq_le_earliestSeq
  have := hv.floor
  omega

end Page

end TopicState

end Topics
