import Topics.Index

/-!
# Exactness of the tag index

The tag index is redundant data: for every tag it should list the live seqs that carry it, in
ascending order, and have no entry for a tag nobody carries.  `TagExact` says so, and every
operation of the index preserves it.
-/

namespace Topics

open List Option Std.TreeMap

/-- A posting list as the map stores it: empty lists are not kept. -/
def posting (l : List Nat) : Option (List Nat) := if l = [] then none else some l

@[simp] theorem posting_nil : posting [] = none := rfl

theorem posting_getD (l : List Nat) : (posting l).getD [] = l := by
  unfold posting
  split
  · rename_i h
    exact h.symm
  · rfl

namespace TagIndex

theorem getElem?_unindexTag (m : TagIndex) (tag : String) (seq : Nat) (t : String) :
    (unindexTag m tag seq)[t]? =
      if t = tag then m[t]?.bind fun v => posting (v.erase seq) else m[t]? := by
  unfold unindexTag
  by_cases ht : t = tag
  · subst ht
    rw [if_pos rfl]
    cases hm : m[t]? with
    | none => simp [hm]
    | some v =>
      simp only [bind_some, posting, List.isEmpty_iff]
      split
      · exact getElem?_erase_self
      · exact getElem?_insert_self
  · rw [if_neg ht]
    cases hm : m[tag]? with
    | none => rfl
    | some v =>
      simp only
      split
      · rw [getElem?_erase]
        simp [Ne.symm ht]
      · rw [Std.TreeMap.getElem?_insert]
        simp [Ne.symm ht]

end TagIndex

namespace TopicIndex

/-- The live seqs tagged `t` among the records `rs`, the first of which sits at `seq`. -/
def tagged (t : String) : Nat → List StoredRecord → List Nat
  | _, [] => []
  | seq, r :: rs =>
    if r.deleted = false ∧ r.tag = some t then seq :: tagged t (seq + 1) rs
    else tagged t (seq + 1) rs

/-- The tag index lists, for every tag, exactly the live seqs that carry it. -/
def TagExact (ix : TopicIndex) : Prop :=
  ∀ t, ix.tagIndex[t]? = posting (tagged t ix.baseSeq ix.records)

theorem tagged_append (t : String) (seq : Nat) (rs rs' : List StoredRecord) :
    tagged t seq (rs ++ rs') = tagged t seq rs ++ tagged t (seq + rs.length) rs' := by
  induction rs generalizing seq with
  | nil => simp [tagged]
  | cons r rs ih =>
    have hlen : seq + (r :: rs).length = seq + 1 + rs.length := by
      simp only [length_cons]
      omega
    rw [cons_append, tagged, tagged, ih, hlen]
    split <;> rfl

variable {t : String} {rs : List StoredRecord} {seq : Nat} {r : StoredRecord}

theorem mem_tagged {seq s : Nat} :
    s ∈ tagged t seq rs ↔
      seq ≤ s ∧ ∃ r, rs[s - seq]? = some r ∧ r.deleted = false ∧ r.tag = some t := by
  induction rs generalizing seq with
  | nil => simp [tagged]
  | cons r rs ih =>
    have hrest : s ∈ tagged t (seq + 1) rs ↔ seq + 1 ≤ s ∧
        ∃ r', (r :: rs)[s - seq]? = some r' ∧ r'.deleted = false ∧ r'.tag = some t := by
      rw [ih]
      refine and_congr_right fun hs => ?_
      rw [show s - seq = s - (seq + 1) + 1 by omega, getElem?_cons_succ]
    rw [tagged]
    split
    · rename_i hr
      rw [mem_cons, hrest]
      constructor
      · rintro (rfl | ⟨hs, h⟩)
        · exact ⟨le_rfl, r, by simp, hr⟩
        · exact ⟨by omega, h⟩
      · rintro ⟨hs, h⟩
        by_cases heq : s = seq
        · exact Or.inl heq
        · exact Or.inr ⟨by omega, h⟩
    · rename_i hr
      rw [hrest]
      refine ⟨fun ⟨hs, h⟩ => ⟨by omega, h⟩, fun ⟨hs, r', hget, h⟩ => ⟨?_, r', hget, h⟩⟩
      -- the slot at `seq` itself does not qualify
      by_contra hlt
      have hzero : s - seq = 0 := by omega
      rw [hzero, getElem?_cons_zero, some.injEq] at hget
      subst hget
      exact hr h

theorem pairwise_tagged (t : String) (seq : Nat) (rs : List StoredRecord) :
    (tagged t seq rs).Pairwise (· < ·) := by
  induction rs generalizing seq with
  | nil => exact List.Pairwise.nil
  | cons r rs ih =>
    rw [tagged]
    split
    · refine List.Pairwise.cons (fun s hs => ?_) (ih (seq + 1))
      have := (mem_tagged.mp hs).1
      omega
    · exact ih (seq + 1)

namespace TagExact

variable {ix : TopicIndex}

theorem getD (h : ix.TagExact) (t : String) :
    ix.tagIndex.getD t [] = tagged t ix.baseSeq ix.records := by
  rw [getD_eq_getD_getElem?, h t, posting_getD]

/-- **An exact tag index lists a seq under `t` iff a live record with that tag sits there.** -/
theorem mem_iff (h : ix.TagExact) (t : String) (s : Nat) :
    s ∈ ix.tagIndex.getD t [] ↔ ∃ r, ix.live s = some r ∧ r.tag = some t := by
  rw [h.getD, mem_tagged]
  constructor
  · rintro ⟨hs, r, hget, hdel, htag⟩
    refine ⟨r, live_eq_some.mpr ⟨?_, hdel⟩, htag⟩
    unfold get
    rw [if_neg (by omega), hget]
  · rintro ⟨r, hlive, htag⟩
    obtain ⟨hget, hdel⟩ := live_eq_some.mp hlive
    have hb := base_le_of_get hget
    unfold get at hget
    rw [if_neg (by omega)] at hget
    exact ⟨hb, r, hget, hdel, htag⟩

theorem pairwise (h : ix.TagExact) (t : String) :
    (ix.tagIndex.getD t []).Pairwise (· < ·) := by
  rw [h.getD]
  exact pairwise_tagged t _ _

theorem new (b : Nat) : (TopicIndex.new b).TagExact := by
  intro t
  simp [TopicIndex.new, tagged]

theorem push (h : ix.TagExact) {r : StoredRecord} (hr : r.deleted = true → r.tag = none) :
    (ix.push r).TagExact := by
  intro t
  rw [push_baseSeq, push_records, tagged_append]
  have htail : ix.baseSeq + ix.records.length = ix.tail := rfl
  rw [htail]
  unfold TopicIndex.push
  cases htag : r.tag with
  | none =>
    have : tagged t ix.tail [r] = [] := by simp [tagged, htag]
    rw [this, append_nil]
    exact h t
  | some u =>
    have hlive : r.deleted = false := by
      cases hd : r.deleted with
      | false => rfl
      | true => rw [hr hd] at htag; cases htag
    simp only [TagIndex.getElem?_indexTag]
    by_cases htu : t = u
    · subst htu
      have : tagged t ix.tail [r] = [ix.tail] := by simp [tagged, htag, hlive]
      rw [if_pos rfl, this, h.getD]
      simp [posting]
    · have : tagged t ix.tail [r] = [] := by simp [tagged, htag, Ne.symm htu]
      rw [if_neg htu, this, append_nil]
      exact h t

theorem pushAll (h : ix.TagExact) {rs : List StoredRecord}
    (hrs : ∀ r ∈ rs, r.deleted = true → r.tag = none) : (ix.pushAll rs).TagExact := by
  induction rs generalizing ix with
  | nil => exact h
  | cons r rs ih =>
    rw [pushAll_cons]
    exact ih (h.push (hrs r mem_cons_self)) fun r' hr' => hrs r' (mem_cons_of_mem r hr')

end TagExact

/-! ## Removing slots

Both removals drop the posting of one slot at a time, so both reduce to `unindexSlot`. -/

/-- Drop the posting of the record `r` sitting at `seq`, if it has a tag. -/
def unindexSlot (m : TagIndex) (seq : Nat) (r : StoredRecord) : TagIndex :=
  match r.tag with
  | some t => TagIndex.unindexTag m t seq
  | none => m

private theorem getElem?_unindexSlot {m : TagIndex} {l : List Nat} (hm : m[t]? = posting l)
    (hl : r.tag ≠ some t → seq ∉ l) :
    (unindexSlot m seq r)[t]? = posting (l.erase seq) := by
  unfold unindexSlot
  by_cases hr : r.tag = some t
  · rw [hr]
    simp only [TagIndex.getElem?_unindexTag, if_pos, hm]
    by_cases hnil : l = []
    · simp [hnil]
    · simp [posting, hnil]
  · rw [erase_of_not_mem (hl hr)]
    cases htag : r.tag with
    | none => exact hm
    | some u =>
      have htu : t ≠ u := fun h => hr (by rw [htag, h])
      simp only [TagIndex.getElem?_unindexTag, if_neg htu, hm]

private theorem tagged_set (hr : r.deleted = true) {i seq : Nat} (hi : i < rs.length) :
    tagged t seq (rs.set i r) = (tagged t seq rs).erase (seq + i) := by
  induction rs generalizing i seq with
  | nil => simp at hi
  | cons q rs ih =>
    cases i with
    | zero =>
      have hnot : seq ∉ tagged t (seq + 1) rs := fun h => by
        have := (mem_tagged.mp h).1
        omega
      rw [set_cons_zero, tagged, if_neg (by simp [hr]), tagged]
      split
      · simp
      · exact (erase_of_not_mem hnot).symm
    | succ i =>
      have hrec : tagged t (seq + 1) (rs.set i r) = (tagged t (seq + 1) rs).erase (seq + 1 + i) :=
        ih (Nat.lt_of_succ_lt_succ hi)
      rw [show seq + 1 + i = seq + (i + 1) by omega] at hrec
      rw [set_cons_succ, tagged, tagged, hrec]
      split
      · rw [erase_cons_tail]
        simp
      · rfl

namespace TagExact

variable {ix : TopicIndex} {seq : Nat} {rs : List StoredRecord} {m : TagIndex} {t : String}

theorem markDeleted (h : ix.TagExact) (seq : Nat) :
    (ix.markDeleted seq).1.TagExact := by
  unfold TopicIndex.markDeleted
  split
  · exact h
  · rename_i r hr
    split
    · exact h
    · intro t
      have hb := base_le_of_get hr
      have ht := lt_tail_of_get hr
      have hi : seq - ix.baseSeq < ix.records.length := by
        unfold tail at ht
        omega
      rw [tagged_set r.markDeleted_deleted hi, show ix.baseSeq + (seq - ix.baseSeq) = seq by omega]
      refine getElem?_unindexSlot (r := r) (h t) fun htag hmem => ?_
      obtain ⟨_, r', hget, _, htag'⟩ := mem_tagged.mp hmem
      unfold get at hr
      rw [if_neg (by omega), hget, some.injEq] at hr
      exact htag (hr ▸ htag')

private theorem unindexFront {r : StoredRecord} {l : List Nat} (hl : ∀ s ∈ l, s < seq)
    (h : m[t]? = posting (l ++ tagged t seq (r :: rs))) :
    (unindexSlot m seq r)[t]? = posting (l ++ tagged t (seq + 1) rs) := by
  have hfront : seq ∉ l := fun hmem => (hl seq hmem).ne rfl
  have hnot : seq ∉ tagged t (seq + 1) rs := fun hmem => by
    have := (mem_tagged.mp hmem).1
    omega
  rw [getElem?_unindexSlot h]
  · rw [erase_append_right _ hfront, tagged]
    split
    · simp
    · rw [erase_of_not_mem hnot]
  · intro htag
    rw [tagged, if_neg fun h => htag h.2]
    exact fun hmem => (mem_append.mp hmem).elim hfront hnot

private theorem unindexAll (n : Nat) {l : List Nat} (hl : ∀ s ∈ l, s < seq)
    (h : m[t]? = posting (l ++ tagged t seq rs)) (hn : n ≤ rs.length) :
    (TagIndex.unindexAll m seq (rs.take n))[t]? = posting (l ++ tagged t (seq + n) (rs.drop n)) := by
  induction n generalizing seq m rs with
  | zero => simpa [TagIndex.unindexAll] using h
  | succ n ih =>
    cases rs with
    | nil => simp at hn
    | cons r rs =>
      rw [take_succ_cons, drop_succ_cons, TagIndex.unindexAll,
        show seq + (n + 1) = seq + 1 + n by omega]
      exact ih (fun s hs => (hl s hs).trans (Nat.lt_succ_self seq)) (unindexFront hl h)
        (Nat.le_of_succ_le_succ hn)

theorem drainFront (h : ix.TagExact) (n : Nat) :
    (ix.drainFront n).1.TagExact :=
  fun t => unindexAll (l := []) _ (forall_mem_nil _) (h t) (min_le_right n ix.records.length)

theorem truncate (h : ix.TagExact) {n : Nat} (hn : n ≤ ix.records.length) :
    (ix.truncate n).TagExact := by
  intro t
  have hsplit := h t
  rw [← take_append_drop n ix.records, tagged_append, length_take_of_le hn] at hsplit
  have hcut := unindexAll (ix.records.drop n).length (fun s hs => ?_) hsplit le_rfl
  · rw [take_length, drop_length, tagged, append_nil] at hcut
    exact hcut
  · obtain ⟨-, r, hr, -⟩ := mem_tagged.mp hs
    have := (List.getElem?_eq_some_iff.mp hr).1
    rw [length_take] at this
    omega

end TagExact

end TopicIndex

end Topics
