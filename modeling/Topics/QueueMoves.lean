import Topics.QueueCalls

/-!
# Where the jobs of a queue are

Every job below the claim cursor is leased, on one of the two heaps, or taken out by a call that
is not done with it.  A critical section of the queue moves jobs between these places.
-/

namespace Topics

open List Option Std.TreeMap

namespace QueueProjection

/-- In how many places a seq is: the leases, the two heaps, and the seqs `held` by a call. -/
def spots (q : QueueProjection) (held : List Nat) (x : Nat) : Nat :=
  (if q.leases.contains x then 1 else 0) + q.reclaim.count x + (q.delayed.map Prod.snd).count x +
    held.count x

/-- One for the seqs the cursor has passed on its way from `c` to `c'`. -/
def passed (c c' x : Nat) : Nat := if c ≤ x ∧ x < c' then 1 else 0

/-- From one projection and list of held seqs to another, jobs were only moved. -/
structure Moves (ix : TopicIndex) (head : Nat) (q q' : QueueProjection) (held held' : List Nat) :
    Prop where
  cursor : q.claimCursor ≤ q'.claimCursor
  bound : q'.claimCursor ≤ max q.claimCursor (head + 1)
  spots : ∀ x, q'.spots held' x ≤ q.spots held x + passed q.claimCursor q'.claimCursor x
  kept : ∀ x, (ix.live x).isSome → 0 < q.spots held x + passed q.claimCursor q'.claimCursor x →
    0 < q'.spots held' x

variable {ix : TopicIndex} {head : Nat} {q q' q'' : QueueProjection}
  {held held' held'' : List Nat}

@[simp] theorem passed_self (c x : Nat) : passed c c x = 0 := if_neg (by omega)

theorem passed_cases (c c' x : Nat) :
    passed c c' x = 0 ∧ ¬ (c ≤ x ∧ x < c') ∨ passed c c' x = 1 ∧ c ≤ x ∧ x < c' := by
  unfold passed
  split <;> omega

theorem passed_add {c c' c'' : Nat} (h : c ≤ c') (h' : c' ≤ c'') (x : Nat) :
    passed c c'' x = passed c c' x + passed c' c'' x := by
  unfold passed
  split <;> split <;> split <;> omega

namespace Moves

theorem trans (h : Moves ix head q q' held held') (h' : Moves ix head q' q'' held' held'') :
    Moves ix head q q'' held held'' := by
  refine ⟨h.cursor.trans h'.cursor, ?_, fun x => ?_, fun x hx hpos => ?_⟩
  · have := h.bound
    have := h'.bound
    omega
  · rw [passed_add h.cursor h'.cursor]
    have := h.spots x
    have := h'.spots x
    omega
  · rw [passed_add h.cursor h'.cursor] at hpos
    refine h'.kept x hx ?_
    have := h.kept x hx
    omega

theorem of_spots (hcursor : q'.claimCursor = q.claimCursor)
    (hle : ∀ x, q'.spots held' x ≤ q.spots held x)
    (hpos : ∀ x, 0 < q.spots held x → 0 < q'.spots held' x) : Moves ix head q q' held held' := by
  refine ⟨hcursor.ge, hcursor.le.trans (le_max_left _ _), fun x => ?_, fun x _ => ?_⟩
  · rw [hcursor, passed_self]
    exact hle x
  · rw [hcursor, passed_self]
    exact hpos x

theorem refl (q : QueueProjection) (held : List Nat) : Moves ix head q q held held :=
  .of_spots rfl (fun _ => le_rfl) fun _ => id

end Moves

/-! ## One job -/

theorem count_pushReclaim (q : QueueProjection) (s x : Nat) :
    (q.pushReclaim s).reclaim.count x =
      q.reclaim.count x + if s = x ∧ s ∉ q.reclaim then 1 else 0 := by
  unfold pushReclaim
  by_cases hs : s ∈ q.reclaim
  · simp [hs]
  · simp only [hs, if_false, not_false_eq_true, and_true]
    rw [(perm_orderedInsert _ s q.reclaim).count_eq, count_cons]
    simp only [beq_iff_eq]

theorem contains_erase_leases (q : QueueProjection) (s x : Nat) :
    (q.leases.erase s).contains x = (decide (s ≠ x) && q.leases.contains x) := by
  rw [contains_erase]
  by_cases h : s = x <;> simp [h]

theorem contains_insert_leases (q : QueueProjection) (s x : Nat) (l : Lease) :
    (q.leases.insert s l).contains x = (decide (s = x) || q.leases.contains x) := by
  rw [Std.TreeMap.contains_insert]
  by_cases h : s = x <;> simp [h]

variable {s : Nat}

theorem moves_pushReclaim (hheld : ∀ x, held.count x = held'.count x + if s = x then 1 else 0) :
    Moves ix head q (q.pushReclaim s) held held' := by
  refine .of_spots (by simp) (fun x => ?_) fun x hpos => ?_
  · simp only [spots, pushReclaim_leases, count_pushReclaim, pushReclaim_delayed, hheld x]
    split <;> split <;> split <;> omega
  · simp only [spots, pushReclaim_leases, count_pushReclaim, pushReclaim_delayed, hheld x] at hpos ⊢
    by_cases hs : s ∈ q.reclaim
    · have hcount := count_pos_iff.mpr hs
      by_cases hx : s = x
      · subst hx
        omega
      · simp only [hx, if_false, false_and] at hpos ⊢
        exact hpos
    · simp only [hs, not_false_eq_true, and_true]
      omega

theorem moves_pushDelayed (readyAt : Int)
    (hheld : ∀ x, held.count x = held'.count x + if s = x then 1 else 0) :
    Moves ix head q (q.pushDelayed readyAt s) held held' := by
  have hspots : ∀ x, (q.pushDelayed readyAt s).spots held' x = q.spots held x := fun x => by
    have hcount : ((q.pushDelayed readyAt s).delayed.map Prod.snd).count x =
        (q.delayed.map Prod.snd).count x + if s = x then 1 else 0 := by
      refine (((perm_orderedInsert delayedLe (readyAt, s) q.delayed).map Prod.snd).count_eq
        x).trans ?_
      simp only [map_cons, count_cons, beq_iff_eq]
    have hleases : (q.pushDelayed readyAt s).leases = q.leases := rfl
    have hreclaim : (q.pushDelayed readyAt s).reclaim = q.reclaim := rfl
    rw [spots, spots, hcount, hheld x, hleases, hreclaim]
    omega
  exact .of_spots rfl (fun x => (hspots x).le) fun x hpos => (hspots x).symm ▸ hpos

theorem moves_dropLease (hs : q.leases.contains s = true) :
    Moves ix head q (q.dropLease s) held held := by
  have herase : Moves ix head q { q with leases := q.leases.erase s } held (s :: held) := by
    refine .of_spots rfl (fun x => ?_) fun x hpos => ?_
    · simp only [spots, contains_erase_leases, count_cons, beq_iff_eq]
      by_cases hx : s = x
      · subst hx
        simp only [hs, if_true, ne_eq, not_true_eq_false, decide_false, Bool.false_and]
        simp only [Bool.false_eq_true, if_false]
        omega
      · simp [hx]
    · simp only [spots, contains_erase_leases, count_cons, beq_iff_eq] at hpos ⊢
      by_cases hx : s = x
      · subst hx
        simp only [if_true]
        omega
      · simpa [hx] using hpos
  refine herase.trans (moves_pushReclaim fun x => ?_)
  simp only [count_cons, beq_iff_eq]

theorem moves_foldl_dropLease (l : List Nat) (hnodup : l.Nodup)
    (hl : ∀ s ∈ l, q.leases.contains s = true) :
    Moves ix head q (l.foldl dropLease q) held held := by
  induction l generalizing q with
  | nil => exact .refl q held
  | cons s l ih =>
    obtain ⟨hs, hnodup⟩ := nodup_cons.mp hnodup
    refine (moves_dropLease (hl s mem_cons_self)).trans (ih hnodup fun x hx => ?_)
    simp only [dropLease, pushReclaim_leases, contains_erase_leases, hl x (mem_cons_of_mem _ hx),
      Bool.and_true, decide_eq_true_eq]
    rintro rfl
    exact hs hx

theorem nodup_filter_leases (q : QueueProjection) (p : Nat × Lease → Bool) :
    ((q.leases.toList.filter p).map Prod.fst).Nodup := by
  have hsub : List.Sublist ((q.leases.toList.filter p).map Prod.fst) q.leases.keys := by
    rw [← map_fst_toList_eq_keys]
    exact filter_sublist.map _
  exact nodup_keys.sublist hsub

theorem contains_of_mem_filter_leases {p : Nat × Lease → Bool}
    (h : s ∈ (q.leases.toList.filter p).map Prod.fst) : q.leases.contains s = true := by
  obtain ⟨e, he, rfl⟩ := mem_map.mp h
  have hget := mem_toList_iff_getElem?_eq_some.mp (mem_filter.mp he).1
  exact contains_eq_isSome_getElem?.trans (by rw [hget]; rfl)

/-! ## The sweep -/

theorem moves_sweepDelayed (now : Int) (l : List (Int × Nat)) (q : QueueProjection) :
    Moves ix head { q with delayed := l } (sweepDelayed now l q) held held := by
  induction l generalizing q with
  | nil => exact .refl _ _
  | cons e l ih =>
    obtain ⟨readyAt, s⟩ := e
    unfold sweepDelayed
    split
    · exact .refl _ _
    · refine Moves.trans (?_ : Moves ix head _ { q with delayed := l } held (s :: held)) ?_
      · refine .of_spots rfl (fun x => ?_) fun x hpos => ?_
        · simp only [spots, map_cons, count_cons]
          omega
        · simp only [spots, map_cons, count_cons] at hpos ⊢
          omega
      · split
        · -- the job is leased again: it keeps that place
          rename_i hleased
          refine Moves.trans (.of_spots rfl (fun x => ?_) fun x hpos => ?_) (ih q)
          · simp only [spots, count_cons]
            omega
          · simp only [spots, count_cons, beq_iff_eq] at hpos ⊢
            by_cases hx : s = x
            · subst hx
              simp only [hleased, if_true]
              omega
            · simpa [hx] using hpos
        · refine Moves.trans ?_ (ih (q.pushReclaim s))
          have hpush : { q.pushReclaim s with delayed := l } = { q with delayed := l }.pushReclaim s := by
            unfold pushReclaim
            split <;> rfl
          rw [hpush]
          refine moves_pushReclaim fun x => ?_
          simp only [count_cons, beq_iff_eq]

/-- **The sweep** only moves jobs. -/
theorem moves_sweepExpired (q : QueueProjection) (now : Int) :
    Moves ix head q (q.sweepExpired now) held held :=
  (moves_sweepDelayed now q.delayed q).trans
    (moves_foldl_dropLease _ (nodup_filter_leases _ _) fun _ => contains_of_mem_filter_leases)

/-! ## The claim pass -/

theorem moves_nextClaimable {x : Option Nat} (h : q.nextClaimable ix head = (x, q')) :
    Moves ix head q q' held (held ++ x.toList) := by
  -- what is popped without being taken is dead or leased
  have hidle : ∀ y, ¬ q.Idle ix y → (ix.live y).isSome → q.leases.contains y = true := by
    intro y hy hlive
    by_contra hc
    exact hy ⟨hlive, Bool.eq_false_iff.mpr hc⟩
  unfold nextClaimable at h
  rcases claimReclaimed_cases ix q.reclaim q with ⟨heq, hnone⟩ | ⟨skip, y, rest, hl, hy, hskip, heq⟩
  · rw [heq] at h
    simp only at h
    rcases claimFresh_cases ix (head + 1 - q.claimCursor) { q with reclaim := [] } with
      ⟨heq', hfresh⟩ | ⟨y, hlo, hhi, hidle', hbelow, heq'⟩
    · rw [heq'] at h
      cases h
      refine ⟨Nat.le_add_right _ _, ?_, fun z => ?_, fun z hz hpos => ?_⟩
      · simp only
        omega
      · simp only [spots, count_nil, toList_none, append_nil]
        omega
      · simp only [spots, count_nil, toList_none, append_nil, passed] at hpos ⊢
        by_cases hc : q.leases.contains z = true
        · simp only [hc, if_true]
          omega
        · have hz₁ : z ∉ q.reclaim := fun hmem => hc (hidle z (hnone z hmem) hz)
          have hz₂ : ¬ (q.claimCursor ≤ z ∧ z < q.claimCursor + (head + 1 - q.claimCursor)) :=
            fun hr => hc (hidle z (hfresh z hr.1 hr.2) hz)
          rw [count_eq_zero.mpr hz₁, if_neg hz₂] at hpos
          exact hpos
    · rw [heq'] at h
      cases h
      simp only at hlo hhi
      refine ⟨?_, ?_, fun z => ?_, fun z hz hpos => ?_⟩
      · simp only
        omega
      · simp only
        omega
      · simp only [spots, count_nil, toList_some, count_append, count_cons,
          count_nil, passed, beq_iff_eq]
        split <;> split <;> split <;> omega
      · simp only [spots, count_nil, toList_some, count_append, count_cons,
          count_nil, passed, beq_iff_eq] at hpos ⊢
        by_cases hc : q.leases.contains z = true
        · simp only [hc, if_true]
          omega
        · have hz₁ : z ∉ q.reclaim := fun hmem => hc (hidle z (hnone z hmem) hz)
          have hz₂ : ¬ (q.claimCursor ≤ z ∧ z < y) :=
            fun hr => hc (hidle z (hbelow z hr.1 hr.2) hz)
          rw [count_eq_zero.mpr hz₁] at hpos
          by_cases hzy : y = z
          · simp only [hzy, if_true]
            omega
          · rw [if_neg (show ¬ (q.claimCursor ≤ z ∧ z < y + 1) by omega)] at hpos
            omega
  · rw [heq] at h
    cases h
    refine ⟨le_rfl, le_max_left _ _, fun z => ?_, fun z hz hpos => ?_⟩
    · simp only [spots, hl, toList_some, count_append, count_cons, count_nil,
        passed_self]
      omega
    · simp only [spots, hl, toList_some, count_append, count_cons, count_nil,
        passed_self] at hpos ⊢
      by_cases hc : q.leases.contains z = true
      · simp only [hc, if_true]
        omega
      · have hz₁ : z ∉ skip := fun hmem => hc (hidle z (hskip z hmem) hz)
        rw [count_eq_zero.mpr hz₁] at hpos
        omega

theorem moves_lease (claimers : List Claimer) (terms : ClaimTerms) (st : ClaimPass)
    (q : QueueProjection) (rr seq : Nat) :
    Moves ix head q (st.lease claimers terms q rr seq).q (held ++ [seq]) held := by
  refine .of_spots rfl (fun x => ?_) fun x hpos => ?_
  · simp only [spots, ClaimPass.lease, contains_insert_leases, count_append, count_cons,
      count_nil, beq_iff_eq]
    by_cases hx : seq = x
    · simp only [hx, decide_true, Bool.true_or, if_true]
      omega
    · simp [hx]
  · simp only [spots, ClaimPass.lease, contains_insert_leases, count_append, count_cons,
      count_nil, beq_iff_eq] at hpos ⊢
    by_cases hx : seq = x
    · simp only [hx, decide_true, Bool.true_or, if_true]
      omega
    · simpa [hx] using hpos

/-- **A claim pass** takes jobs out for the dead-letter topic and leases the others. -/
theorem moves_runClaimCohort (q : QueueProjection) (claimers : List Claimer) (terms : ClaimTerms)
    (now : Int) :
    Moves ix head q (runClaimCohort q ix head claimers terms now).q held
      (held ++ (runClaimCohort q ix head claimers terms now).toDeadLetter) := by
  refine ClaimPass.claimLoop_induct
    (P := fun st => Moves ix head q st.q held (held ++ st.toDeadLetter)) (fun _ _ h => h) ?_ ?_ ?_ _ ?_
  · intro st q' rr h hnext
    have := h.trans (moves_nextClaimable hnext)
    rwa [toList_none, append_nil] at this
  · intro st q' rr seq h hnext _
    have htaken := h.trans (moves_nextClaimable hnext)
    rw [toList_some, append_assoc] at htaken
    exact htaken.trans (.of_spots rfl (fun _ => le_rfl) fun _ => id)
  · intro st q' rr seq h hnext _
    have htaken := h.trans (moves_nextClaimable hnext)
    rw [toList_some] at htaken
    exact htaken.trans (moves_lease claimers terms st q' rr seq)
  · simp only [append_nil]
    exact moves_sweepExpired q now

/-! ## The fenced calls -/

theorem contains_of_getElem? {l : Lease} (h : q.leases[s]? = some l) :
    q.leases.contains s = true :=
  contains_eq_isSome_getElem?.trans (by rw [h]; rfl)

theorem moves_erase (hs : q.leases.contains s = true) :
    Moves ix head q { q with leases := q.leases.erase s } held (held ++ [s]) := by
  refine .of_spots rfl (fun x => ?_) fun x hpos => ?_
  · simp only [spots, contains_erase_leases, count_append, count_cons, count_nil,
      beq_iff_eq]
    by_cases hx : s = x
    · subst hx
      simp only [hs, if_true, ne_eq, not_true_eq_false, decide_false, Bool.false_and,
        Bool.false_eq_true, if_false]
      omega
    · simp [hx]
  · simp only [spots, contains_erase_leases, count_append, count_cons, count_nil,
      beq_iff_eq] at hpos ⊢
    by_cases hx : s = x
    · subst hx
      simp only [if_true]
      omega
    · simpa [hx] using hpos

theorem moves_ackLeases (q : QueueProjection) (node : String) (seqs : List Nat)
    (leaseIds : List (Option Nat)) (now : Int) :
    Moves ix head q (q.ackLeases node seqs leaseIds now).1 held
      (held ++ (q.ackLeases node seqs leaseIds now).2.map Prod.fst) := by
  unfold ackLeases
  rw [ackLoop_eq_heldLoop]
  refine heldLoop_induct (P := fun q' done => Moves ix head q q' held (held ++ done.map Prod.fst))
    (fun q' done s l hl _ h => ?_) _ (by simpa using moves_sweepExpired q now)
  refine h.trans ?_
  rw [map_append, ← append_assoc]
  exact (moves_erase (contains_of_getElem? hl)).trans (.of_spots rfl (fun _ => le_rfl) fun _ => id)

theorem moves_nackLeases (q : QueueProjection) (node : String) (seqs : List Nat)
    (leaseIds : List (Option Nat)) (delayMs : Nat) (now : Int) :
    Moves ix head q (q.nackLeases node seqs leaseIds delayMs now).1 held held := by
  refine heldLoop_induct (P := fun q' _ => Moves ix head q q' held held)
    (fun q' done s l hl _ h => ?_) _ (moves_sweepExpired q now)
  refine (h.trans (moves_erase (contains_of_getElem? hl))).trans ?_
  unfold nackOne
  simp only
  have hheld : ∀ x, (held ++ [s]).count x = held.count x + if s = x then 1 else 0 := fun x => by
    simp only [count_append, count_cons, count_nil, beq_iff_eq, Nat.zero_add]
  split
  · exact moves_pushDelayed _ hheld
  · exact moves_pushReclaim hheld

theorem moves_extendLeases (q : QueueProjection) (node : String) (seqs : List Nat)
    (leaseIds : List (Option Nat)) (leaseMs : Nat) (now : Int) :
    Moves ix head q (q.extendLeases node seqs leaseIds leaseMs now).1 held held := by
  refine heldLoop_induct (P := fun q' _ => Moves ix head q q' held held)
    (fun q' done s l hl _ h => h.trans ?_) _ (moves_sweepExpired q now)
  have hsame : ∀ x, (extendOne (extendDeadline leaseMs now) q' s l).spots held x = q'.spots held x := by
    intro x
    simp only [spots, extendOne, contains_insert_leases]
    by_cases hx : s = x
    · subst hx
      simp [contains_of_getElem? hl]
    · simp [hx]
  exact .of_spots rfl (fun x => (hsame x).le) fun x hpos => (hsame x).symm ▸ hpos

theorem moves_releaseConn (q : QueueProjection) (conn : Nat) :
    Moves ix head q (q.releaseConn conn).1 held held := by
  rw [releaseConn_eq_foldl]
  exact moves_foldl_dropLease _ (nodup_filter_leases _ _) fun _ => contains_of_mem_filter_leases

end QueueProjection

end Topics
