import Topics.LogContract

/-!
# Reading a topic to its head

A reader that repeats `diff` from the `next_from_seq` of the page before, on a topic that nobody
else uses and at one reading of the clock.
-/

namespace Topics

open Lib TopicState List

namespace TopicState

section Pages

variable (resolve : Nat → Value × Option Value) (req : DiffRequest) (now : Int)

/-- The pages of a reader, until one is caught up or `n` have been read.  Every call enforces
retention first. -/
def pages : Nat → TopicState → Nat → List DiffResponse
  | 0, _, _ => []
  | n + 1, b, cursor =>
    let b := b.enforceRetention now
    let page := b.diff resolve { req with fromSeq := cursor } now
    page :: if page.caughtUp then [] else pages n b page.nextFromSeq

/-- The limits of a page: the records, and the bytes of all but a single record. -/
def Sized (b : TopicState) (w : DiffWalk) : Prop :=
  w.records.length ≤ req.effectiveLimit ∧ w.batchBytes = b.pageBytes w.records ∧
    (w.batchBytes ≤ req.effectiveBytes ∨ w.records.length ≤ 1)

end Pages

variable {b : TopicState} {resolve : Nat → Value × Option Value} {req : DiffRequest} {now : Int}
  {seq n c : Nat} {w w' : DiffWalk}

/-! ## One page -/

theorem Sized.step (h : Sized req b w) (hstep : b.WalkStep resolve req now seq w w') :
    Sized req b w' := by
  obtain ⟨-, hbytes, hbudget⟩ := h
  have hlimit := hstep.limit
  have hlen := congrArg length hstep.records
  have hone : (b.delivery resolve req now seq).toList.length ≤ 1 := by
    cases b.delivery resolve req now seq <;> simp
  rw [length_append] at hlen
  refine ⟨by omega, ?_, ?_⟩
  · rw [hstep.bytes, hstep.records, hbytes]
    simp [pageBytes]
  · rcases hstep.budget with hsame | hempty | hle
    · -- nothing was delivered, so nothing was counted
      rw [hsame]
      have hnone : (b.delivery resolve req now seq).toList = [] := by
        simpa [hsame] using hstep.records
      rw [hstep.bytes, hnone]
      exact hbudget
    · right
      rw [hempty, length_nil] at hlen
      omega
    · exact .inl hle

theorem Sized.diffWalk (h : Sized req b w) (n seq : Nat) :
    Sized req b (b.diffWalk resolve req now n seq w) := by
  induction n generalizing seq w with
  | zero => exact h
  | succ n ih =>
    rcases @diffWalk_succ b resolve req now n seq w with ⟨heq, -⟩ | ⟨w', hstep, heq⟩
    · rw [heq]
      exact h
    · rw [heq]
      exact ih (h.step hstep) (seq + 1)

/-- **The size of a page.** -/
theorem diff_sized (b : TopicState) (resolve : Nat → Value × Option Value) (req : DiffRequest)
    (now : Int) : (b.diff resolve req now).records.length ≤ req.effectiveLimit ∧
      (b.pageBytes (b.diff resolve req now).records ≤ req.effectiveBytes ∨
        (b.diff resolve req now).records.length ≤ 1) := by
  have hempty : Sized req b ⟨[], 0, b.diffCursor req, 0⟩ := ⟨Nat.zero_le _, rfl, .inr (Nat.zero_le _)⟩
  obtain ⟨hlimit, hbytes, hbudget⟩ := @Sized.diffWalk b resolve req now _ hempty
    (b.headSeq - b.diffCursor req) (b.diffCursor req + 1)
  rw [hbytes] at hbudget
  exact ⟨hlimit, hbudget⟩

theorem diffCursor_eq (hfloor : b.evictEarliestSeq ≤ req.fromSeq + 1) (hc : req.fromSeq ≤ b.headSeq) :
    b.diffCursor req = req.fromSeq ∧ b.diffTombstone req = none := by
  unfold diffCursor diffTombstone
  simp [hc.not_gt, Nat.not_lt.mpr hfloor]

/-! ## All pages -/

theorem shownRun_add (seq m n : Nat) : b.shownRun resolve req now seq (m + n) =
    b.shownRun resolve req now seq m ++ b.shownRun resolve req now (seq + m) n := by
  unfold shownRun
  rw [← range'_append_1, filterMap_append]

/-- **What a reader gets** whose pages from cursor `c` on are `ps`: the last one is caught up,
together they hold every deliverable record behind `start` once and in order, none exceeds its
limits, and only the first can have a tombstone. -/
structure Drained (b : TopicState) (resolve : Nat → Value × Option Value) (req : DiffRequest)
    (now : Int) (c start : Nat) (ps : List DiffResponse) : Prop where
  last : ∃ d ∈ ps.getLast?, d.caughtUp = true
  records : ps.flatMap (·.records) = b.shownRun resolve req now (start + 1) (b.headSeq - start)
  sized : ∀ d ∈ ps, d.records.length ≤ req.effectiveLimit ∧
    (b.pageBytes d.records ≤ req.effectiveBytes ∨ d.records.length ≤ 1)
  silent : ∀ d ∈ ps.tail, d.tombstone = none
  first : b.evictEarliestSeq ≤ c + 1 → c ≤ b.headSeq → ∀ d ∈ ps, d.tombstone = none

theorem drained_pages (hsame : b.enforceRetention now = b)
    (hn : b.headSeq - b.diffCursor { req with fromSeq := c } < n) :
    b.Drained resolve req now c (b.diffCursor { req with fromSeq := c })
      (pages resolve req now n b c) := by
  induction n generalizing c with
  | zero => omega
  | succ n ih =>
    simp only [pages, hsame]
    have hwalk := b.walked_diff resolve { req with fromSeq := c } now
    have hsize := b.diff_sized resolve { req with fromSeq := c } now
    have hfloor := b.evictEarliestSeq_le_diffCursor { req with fromSeq := c }
    have hcur := b.diffCursor_le { req with fromSeq := c }
    have hfirst : b.evictEarliestSeq ≤ c + 1 → c ≤ b.headSeq →
        (b.diff resolve { req with fromSeq := c } now).tombstone = none := fun h h' =>
      (diffCursor_eq h h').2
    have hcaught : (b.diff resolve { req with fromSeq := c } now).caughtUp =
        ((b.diff resolve { req with fromSeq := c } now).nextFromSeq == b.headSeq) := rfl
    generalize b.diff resolve { req with fromSeq := c } now = d at *
    generalize b.diffCursor { req with fromSeq := c } = start at *
    have hlo : start ≤ d.nextFromSeq := hwalk.lo
    have hhi : d.nextFromSeq ≤ start + (b.headSeq - start) := hwalk.hi
    have hrec : d.records = b.shownRun resolve req now (start + 1) (d.nextFromSeq - start) :=
      hwalk.records
    rw [hcaught]
    by_cases hend : d.nextFromSeq = b.headSeq
    · rw [hend, beq_self_eq_true, if_pos rfl]
      refine ⟨⟨d, rfl, by rw [hcaught, hend, beq_self_eq_true]⟩, ?_,
        forall_mem_singleton.mpr hsize, nofun,
        fun h h' => forall_mem_singleton.mpr (hfirst h h')⟩
      rw [flatMap_singleton, hrec, hend]
    · -- the rest of the pages starts where this one ends
      have hgo : start < d.nextFromSeq := hwalk.progress rfl (by omega)
      obtain ⟨hnext, -⟩ := @diffCursor_eq b { req with fromSeq := d.nextFromSeq }
        (by simp only; omega) (by simp only; omega)
      have hrest := ih (c := d.nextFromSeq) (by rw [hnext]; simp only; omega)
      rw [hnext] at hrest
      have hquiet := hrest.first (by omega) (by omega)
      rw [beq_false_of_ne hend, if_neg Bool.false_ne_true]
      refine ⟨?_, ?_, forall_mem_cons.mpr ⟨hsize, hrest.sized⟩, hquiet,
        fun h h' => forall_mem_cons.mpr ⟨hfirst h h', hquiet⟩⟩
      · obtain ⟨e, he, hcaught⟩ := hrest.last
        refine ⟨e, ?_, hcaught⟩
        rw [Option.mem_def, getLast?_cons, Option.mem_def.mp he]
        rfl
      · rw [flatMap_cons, hrest.records, hrec,
          show b.headSeq - start = d.nextFromSeq - start + (b.headSeq - d.nextFromSeq) by omega,
          shownRun_add, show start + 1 + (d.nextFromSeq - start) = d.nextFromSeq + 1 by omega]

end TopicState

namespace LogRun

variable {Blob : Type} {S : Serde Blob} {resolve : Nat → Value × Option Value} {s : LogRun}

end LogRun

end Topics
