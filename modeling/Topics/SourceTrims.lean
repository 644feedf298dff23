import Topics.Forwarding
import Topics.LogContract

/-!
# Source trims and the records of the destination

A source, the topic its routers feed, and calls one after the other.  When the source's retention
outruns a router, the pass appends one hole per lost record at the *end* of the destination and
raises the source-trim floor to it.  That floor is a prefix floor: a reader resumes above it.
-/

namespace Topics

open Lib TopicState TopicIndex StagedAppend

namespace TopicState

/-- The record is published and above every floor. -/
structure Visible (b : TopicState) (q : Nat) (r : StoredRecord) : Prop where
  live : b.index.live q = some r
  head : q ≤ b.headSeq
  floor : b.earliestSeq ≤ q

structure Derived (b : TopicState) : Prop where
  limits : b.config.limits = false
  tail : b.index.tail = b.headSeq + 1

namespace Derived

variable {b : TopicState}

theorem append (h : Derived b) (rs : List StoredRecord) : Derived (b.append rs) := by
  refine ⟨?_, ?_⟩
  · have := h.limits
    unfold TopicState.append publishStagedNoSeal stageAppend
    split <;> exact this
  · have htail := h.tail
    unfold TopicState.append publishStagedNoSeal stageAppend
    split
    · rename_i hcount
      simp only [tail_pushAll] at hcount ⊢
      omega
    · rename_i hcount
      simp only [tail_pushAll, publishHead] at hcount ⊢
      omega

theorem noteSourceTrim (h : Derived b) : Derived b.noteSourceTrim := by
  refine ⟨h.limits, ?_⟩
  simp [TopicState.noteSourceTrim, stageAppend, tail_pushAll]

theorem enforceRetention (h : Derived b) (now : Int) : Derived (b.enforceRetention now) := by
  rwa [enforceRetention_of_unlimited h.limits]

end Derived

theorem Visible.append {b : TopicState} {q : Nat} {r : StoredRecord} (h : Visible b q r)
    (htail : b.index.tail = b.headSeq + 1) (rs : List StoredRecord) :
    Visible (b.append rs) q r := by
  obtain ⟨hlive, hhead, hfloor⟩ := h
  have hlive' := live_pushAll_of_live hlive rs
  unfold earliestSeq Floors.earliestSeq at hfloor
  unfold TopicState.append publishStagedNoSeal stageAppend
  split
  · refine ⟨hlive', hhead, ?_⟩
    unfold earliestSeq Floors.earliestSeq
    simpa only [pushAll_baseSeq] using hfloor
  · rename_i hcount
    simp only at hcount
    refine ⟨hlive', ?_, ?_⟩
    · simp only [publishHead]
      omega
    · unfold earliestSeq Floors.earliestSeq
      simp only [pushAll_baseSeq, publishHead]
      omega

theorem not_mem_diff_of_trim {b : TopicState} {q : Nat} (hfloor : q < b.floors.sourceTrimFloor)
    (hhead : q ≤ b.headSeq) {resolve : Nat → Value × Option Value} {req : DiffRequest} {now : Int}
    {o : RecordOut} (ho : o ∈ (b.diff resolve req now).records) : o.seq ≠ q := by
  obtain ⟨hlo, -, -⟩ := seq_of_mem_diff ho
  unfold evictEarliestSeq Floors.evictEarliest Floors.involuntary at hlo
  omega

end TopicState

/-- The calls on a source and the topic its routers feed. -/
inductive FeedCall where
  | writeSource (records : List RecordIn) (now : Int)
  | readSource (now : Int)
  | deleteSource (beforeSeq : Option Nat) (match_ : Option Filter) (now : Int)
  | putSource (capRecords capBytes ttlMs : Nat) (now : Int)
  | writeDest (records : List RecordIn) (now : Int)
  | readDest (now : Int)
  | forward (name : String) (now : Int)

namespace Routed

variable {Blob : Type}

section Step

variable (S : Serde Blob) (resolve : Nat → Nat → Value × Option Value)

/-- One call.  A read runs retention, whatever page it returns. -/
def feed (x : Routed) : FeedCall → Option Routed
  | .writeSource records now => some { x with source := (LogRun.write S x.source records now).1 }
  | .readSource now => some { x with source := x.source.enforceRetention now }
  | .deleteSource beforeSeq match_ now =>
    some { x with source := LogRun.delete x.source beforeSeq match_ now }
  | .putSource capRecords capBytes ttlMs now =>
    some { x with source := LogRun.putTopic x.source capRecords capBytes ttlMs now }
  | .writeDest records now => some { x with dest := (LogRun.write S x.dest records now).1 }
  | .readDest now => some { x with dest := x.dest.enforceRetention now }
  | .forward name now => some (x.advanceRouter S resolve name now).1

end Step

/-- **Condition**: where a pass appends holes, the destination holds no live record. -/
def HolesFirst (x : Routed) : FeedCall → Prop
  | .forward name now => x.trims name now = 0 ∨ ∀ r ∈ x.dest.index.records, r.deleted = true
  | _ => True

instance (x : Routed) : DecidablePred x.HolesFirst := fun c => by
  unfold HolesFirst
  split <;> infer_instance

variable {S : Serde Blob} {resolve : Nat → Nat → Value × Option Value} {x x' : Routed}

variable {b : TopicState} {q : Nat} {r : StoredRecord} {c : FeedCall}

theorem derived_write (h : b.Derived) (records : List RecordIn) (now : Int) :
    (LogRun.write S b records now).1.Derived := by
  unfold LogRun.write
  simp only
  split
  · exact h.enforceRetention now
  · exact ((h.enforceRetention now).append _).enforceRetention now

theorem visible_write (h : b.Derived) (hvis : b.Visible q r) (records : List RecordIn) (now : Int) :
    (LogRun.write S b records now).1.Visible q r := by
  unfold LogRun.write
  simp only [enforceRetention_of_unlimited h.limits]
  split
  · exact hvis
  · rw [enforceRetention_of_unlimited (h.append _).limits]
    exact hvis.append h.tail _

theorem derived_feed (h : x.dest.Derived) (hstep : x.feed S resolve c = some x') :
    x'.dest.Derived := by
  cases c with
  | writeDest records now =>
    cases hstep
    exact derived_write h records now
  | readDest now =>
    cases hstep
    exact h.enforceRetention now
  | forward name now =>
    cases hstep
    exact advanceRouter_dest (fun _ _ _ b hb => hb.noteSourceTrim)
      (fun b hb => hb.enforceRetention now) (fun b rs _ hb => hb.append rs) h
  | _ =>
    cases hstep
    exact h

/-- **One call**: where the holes come first, a visible record stays visible. -/
theorem visible_feed (h : x.dest.Derived) (hcond : x.HolesFirst c)
    (hstep : x.feed S resolve c = some x') (hvis : x.dest.Visible q r) : x'.dest.Visible q r := by
  cases c with
  | writeDest records now =>
    cases hstep
    exact visible_write h hvis records now
  | readDest now =>
    cases hstep
    simp only [enforceRetention_of_unlimited h.limits]
    exact hvis
  | forward name now =>
    cases hstep
    -- a live record leaves only the case without holes
    have hnone : x.trims name now = 0 := by
      rcases hcond with hnone | hdead
      · exact hnone
      · obtain ⟨hget, hdel⟩ := live_eq_some.mp hvis.live
        rw [hdead r (mem_records_of_get hget)] at hdel
        cases hdel
    refine (advanceRouter_dest_of_trims (P := fun b => b.Derived ∧ b.Visible q r) ?_ ?_ ?_).2
    · rw [hnone]
      exact ⟨h, hvis⟩
    · intro b hb
      rwa [enforceRetention_of_unlimited hb.1.limits]
    · exact fun b rs _ hb => ⟨hb.1.append rs, hb.2.append hb.1.tail rs⟩
  | _ =>
    cases hstep
    exact hvis

theorem lt_sourceTrimFloor_forward {name : String} {now : Int} (h : x.dest.Derived)
    (hn : x.trims name now ≠ 0) (hq : q ≤ x.dest.headSeq) :
    q < (x.advanceRouter S resolve name now).1.dest.floors.sourceTrimFloor ∧
      q ≤ (x.advanceRouter S resolve name now).1.dest.headSeq := by
  refine (advanceRouter_dest_of_trims (P := fun b =>
    b.Derived ∧ q < b.floors.sourceTrimFloor ∧ q ≤ b.headSeq) ?_ ?_ ?_).2
  · -- the first hole lifts the floor, the others keep it
    obtain ⟨n, hn⟩ := Nat.exists_eq_succ_of_ne_zero hn
    rw [hn, Function.iterate_succ_apply]
    have htail := h.tail
    refine Function.Iterate.rec _ ⟨h.noteSourceTrim, ?_, ?_⟩ ?_ n
    · simp only [noteSourceTrim, stageAppend]
      omega
    · simp only [noteSourceTrim, stageAppend]
      omega
    · rintro b ⟨hb, hfloor, hhead⟩
      have htail := hb.tail
      refine ⟨hb.noteSourceTrim, ?_, ?_⟩
      all_goals
        simp only [noteSourceTrim, stageAppend]
        omega
  · intro b hb
    rwa [enforceRetention_of_unlimited hb.1.limits]
  · rintro b rs _ ⟨hb, hfloor, hhead⟩
    have htail := hb.tail
    refine ⟨hb.append rs, ?_, ?_⟩
    · unfold append publishStagedNoSeal stageAppend
      split <;> exact hfloor
    · unfold append publishStagedNoSeal stageAppend
      split
      · exact hhead
      · simp only [publishHead]
        omega

theorem derived_fresh {spec : TopicSpec} (h : spec.config.limits = false) : spec.fresh.Derived :=
  ⟨h, rfl⟩

/-- **Source trims hide what was delivered.**  A record that a reader of the destination can see
stays deliverable from every cursor below it, in every history in which the holes come before the
first record; and one pass that appends a hole behind it takes it out of every page. -/
theorem trims_hide {src dst : TopicSpec} (hlimits : dst.config.limits = false)
    {routers : RouterGraph} {before : List FeedCall}
    (hbefore : exec (feed S resolve) ⟨src.fresh, dst.fresh, routers⟩ before = some x)
    {q : Nat} {r : StoredRecord} (hvis : x.dest.Visible q r) :
    (∀ after x', Along (feed S resolve) HolesFirst x after →
        exec (feed S resolve) x after = some x' →
        ∀ payloads req now, x'.dest.decision req now r = .deliver →
          x'.dest.Deliverable payloads req now q r) ∧
      ∀ name now, x.trims name now ≠ 0 → ∀ payloads req now',
        ∀ o ∈ ((x.advanceRouter S resolve name now).1.dest.diff payloads req now').records,
          o.seq ≠ q := by
  have hderived : x.dest.Derived :=
    exec_invariant _ (I := fun x : Routed => x.dest.Derived) (fun _ _ _ h hs => derived_feed h hs)
      (derived_fresh hlimits) hbefore
  refine ⟨?_, ?_⟩
  · intro after x' halong hafter payloads req now hd
    have hinv := exec_invariant_along _ (I := fun x : Routed => x.dest.Derived ∧ x.dest.Visible q r)
      (fun _ _ _ h hc hs => ⟨derived_feed h.1 hs, visible_feed h.1 hc hs h.2⟩)
      ⟨hderived, hvis⟩ halong hafter
    exact deliverable_of_live hinv.2.live hinv.2.head hinv.2.floor hd
  · intro name now hn payloads req now' o ho
    obtain ⟨hfloor, hhead⟩ := lt_sourceTrimFloor_forward (S := S) hderived hn hvis.head
    exact not_mem_diff_of_trim hfloor hhead ho

/-- A source that keeps one record, and its router to a topic without limits. -/
def cappedSource : TopicSpec := ⟨"src", 1, { capRecords := 1 }, 0⟩

def openDest : TopicSpec := ⟨"dst", 2, {}, 0⟩

def oneFeed : RouterGraph := ⟨[⟨{ name := "r", source := "src", dest := "dst" }, 0, 0, 0⟩]⟩

def writeOne (now : Int) : FeedCall := .writeSource [⟨none, some "a", .null, none⟩] now

/-- The first record is evicted before the first pass. -/
def evictedFirst : List FeedCall := [writeOne 0, writeOne 1, .forward "r" 2]

theorem trims_hide_evictedFirst :
    ∃ x x' r, exec (feed Serde.identity fun _ _ => (.null, none))
        ⟨cappedSource.fresh, openDest.fresh, oneFeed⟩ evictedFirst = some x ∧
      x.dest.floors.sourceTrimFloor = 1 ∧ x.dest.index.live 2 = some r ∧
      exec (feed Serde.identity fun _ _ => (.null, none)) x [writeOne 3, .forward "r" 4] = some x' ∧
      x'.dest.headSeq = 3 ∧ x'.dest.Deliverable (fun _ => (.null, none)) {} 5 2 r := by
  have hrun : exec (feed Serde.identity fun _ _ => (.null, none))
    ⟨cappedSource.fresh, openDest.fresh, oneFeed⟩ evictedFirst = some _ := rfl
  refine ⟨_, _, _, hrun, by decide +kernel, rfl, rfl, by decide +kernel, ?_⟩
  exact (trims_hide rfl hrun ⟨rfl, by decide +kernel, by decide +kernel⟩).1
    [writeOne 3, .forward "r" 4] _ (by decide +kernel) rfl _ _ _ (by decide +kernel)

/-- The first record is forwarded, and a reader can see it; the second is evicted before the next
pass.  Behind its hole the reader's page starts above both. -/
theorem delivered_record_hidden :
    ∃ x x', exec (feed Serde.identity fun _ _ => (.null, none))
        ⟨cappedSource.fresh, openDest.fresh, oneFeed⟩ [writeOne 0, .forward "r" 1] = some x ∧
      ((x.dest.diff (fun _ => (.null, none)) {} 2).records.map (·.seq)) = [1] ∧
      exec (feed Serde.identity fun _ _ => (.null, none)) x
        [writeOne 3, writeOne 4, .forward "r" 5] = some x' ∧
      ((x'.dest.diff (fun _ => (.null, none)) {} 6).records.map (·.seq)) = [3] ∧
      (x'.dest.index.live 1).isSome = true :=
  ⟨_, _, rfl, by decide +kernel, rfl, by decide +kernel, by decide +kernel⟩

end Routed

end Topics
