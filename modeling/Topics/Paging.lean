import Topics.Diff

/-!
# Reading page after page

A reader calls `diff` again and again, each time from the `next_from_seq` of the page before.
-/

namespace Topics

namespace TopicState

variable (b : TopicState) (resolve : Nat → Value × Option Value) (req : DiffRequest) (now : Int)

/-- The records of `n` pages from a cursor on. -/
def readPages : Nat → Nat → List RecordOut
  | 0, _ => []
  | n + 1, cursor =>
    let page := b.diff resolve { req with fromSeq := cursor } now
    page.records ++ readPages n page.nextFromSeq

/-- Whoever reads from below the record is given it, at the latest with one page for each seq
between. -/
def Deliverable (q : Nat) (r : StoredRecord) : Prop :=
  ∀ cursor < q, recordOut resolve req q r ∈ b.readPages resolve req now (q - cursor) cursor

variable {b resolve req now}

variable {q cursor : Nat} {r : StoredRecord}

theorem mem_diff_or_lt (resolve : Nat → Value × Option Value) (hlive : b.index.live q = some r)
    (hhead : q ≤ b.headSeq) (hfloor : b.earliestSeq ≤ q) (hd : b.decision req now r = .deliver)
    (hc : cursor < q) :
    recordOut resolve req q r ∈
        (b.diff resolve { req with fromSeq := cursor } now).records ∨
      cursor < (b.diff resolve { req with fromSeq := cursor } now).nextFromSeq ∧
        (b.diff resolve { req with fromSeq := cursor } now).nextFromSeq < q := by
  have hcur : cursor ≤ b.diffCursor { req with fromSeq := cursor } ∧
      b.diffCursor { req with fromSeq := cursor } < q := by
    unfold diffCursor
    simp only
    split
    · omega
    · split <;> omega
  have hwalk := b.walked_diff resolve { req with fromSeq := cursor } now
  have hgo := hwalk.progress rfl (by omega)
  by_cases hq : q ≤ (b.diff resolve { req with fromSeq := cursor } now).nextFromSeq
  · exact .inl (hwalk.mem (TopicIndex.live_eq_some.mp hlive).1 hd hcur.2 hq)
  · exact .inr ⟨hcur.1.trans_lt hgo, not_le.mp hq⟩

theorem mem_readPages {q cursor n : Nat} (hlive : b.index.live q = some r) (hhead : q ≤ b.headSeq)
    (hfloor : b.earliestSeq ≤ q) (hd : b.decision req now r = .deliver) (hc : cursor < q)
    (hn : q - cursor ≤ n) :
    recordOut resolve req q r ∈ b.readPages resolve req now n cursor := by
  induction n generalizing cursor with
  | zero => omega
  | succ n ih =>
    rcases mem_diff_or_lt resolve hlive hhead hfloor hd hc with hmem | ⟨hlt, hlt'⟩
    · exact List.mem_append_left _ hmem
    · exact List.mem_append_right _ (ih hlt' (by omega))

/-- **A live record above the floors is deliverable.** -/
theorem deliverable_of_live (hlive : b.index.live q = some r) (hhead : q ≤ b.headSeq)
    (hfloor : b.earliestSeq ≤ q) (hd : b.decision req now r = .deliver) :
    b.Deliverable resolve req now q r :=
  fun _ hc => mem_readPages hlive hhead hfloor hd hc le_rfl

end TopicState

end Topics
