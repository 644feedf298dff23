import Topics.QueueSteps

/-!
# Deliveries and dead letters

A queue with `max_deliveries` and a `dead_letter` topic hands out a job at most that often, and then
diverts it: `dead_letter_jobs` appends a copy to the dead-letter topic and deletes the job.  The
divert drops the delivery count, so a job that comes back from a failed append, a failed creation of
the dead-letter topic or a failed delete starts to be counted anew.
-/

namespace Topics

open Lib QueueProjection TopicState Function ClaimPass List Outcome QueueInstr FloorState

/-! ## Counting deliveries -/

/-- The counts of the jobs that may be handed out again, against the history of deliveries. -/
structure Counted (m : Nat) (q : QueueProjection) (handed : List Nat) : Prop where
  counts : ∀ x, 0 < q.spots [] x ∨ q.claimCursor ≤ x → q.deliveries.getD x 0 = handed.count x
  fresh : ∀ x, q.claimCursor ≤ x → handed.count x = 0
  bound : ∀ x, handed.count x ≤ m

/-- No seq is in two places, and all places are below the cursor. -/
structure Housed (q : QueueProjection) (held : List Nat) : Prop where
  once : ∀ x, q.spots held x ≤ 1
  below : ∀ x, 0 < q.spots held x → x < q.claimCursor

theorem Housed.moves {ix : TopicIndex} {head : Nat} {q q' : QueueProjection} {held held' : List Nat}
    (h : Housed q held) (hmoves : Moves ix head q q' held held') : Housed q' held' := by
  have hcursor := hmoves.cursor
  refine ⟨fun x => ?_, fun x hpos => ?_⟩
  all_goals
    have hspots := hmoves.spots x
    have honce := h.once x
    have hbelow := h.below x
    have hpassed := passed_cases q.claimCursor q'.claimCursor x
    omega

namespace Counted

variable {ix : TopicIndex} {head m : Nat} {q q' : QueueProjection} {handed : List Nat}
  {held held' : List Nat}

theorem moves (h : Counted m q handed) (hmoves : Moves ix head q q' held held')
    (hheld : ∀ x, held.count x ≤ held'.count x)
    (hcounts : ∀ x, 0 < q'.spots [] x ∨ q'.claimCursor ≤ x →
      q'.deliveries.getD x 0 = q.deliveries.getD x 0) : Counted m q' handed := by
  have hcursor := hmoves.cursor
  refine ⟨fun x hx => (hcounts x hx).trans (h.counts x ?_), fun x hx => h.fresh x (by omega), h.bound⟩
  have hspots := hmoves.spots x
  have hle := hheld x
  have hpassed := passed_cases q.claimCursor q'.claimCursor x
  rw [Parted.spots_eq q' held', Parted.spots_eq q held] at hspots
  omega

theorem of_deliveries (h : Counted m q handed) (hmoves : Moves ix head q q' [] [])
    (hsame : q'.deliveries = q.deliveries) : Counted m q' handed :=
  h.moves hmoves (fun _ => le_rfl) fun x _ => by rw [hsame]

end Counted

/-! ## The sections -/

theorem pushReclaim_deadLettered (q : QueueProjection) (x : Nat) :
    (q.pushReclaim x).deadLettered = q.deadLettered := by
  unfold pushReclaim
  split <;> rfl

theorem foldl_dropLease_deadLettered (l : List Nat) (q : QueueProjection) :
    (l.foldl dropLease q).deadLettered = q.deadLettered := by
  induction l generalizing q with
  | nil => rfl
  | cons x l ih => exact (ih (q.dropLease x)).trans (pushReclaim_deadLettered _ x)

theorem sweepExpired_deadLettered (q : QueueProjection) (now : Int) :
    (q.sweepExpired now).deadLettered = q.deadLettered := by
  have hdelayed : ∀ (l : List (Int × Nat)) (q : QueueProjection),
      (sweepDelayed now l q).deadLettered = q.deadLettered := by
    intro l
    induction l with
    | nil => exact fun _ => rfl
    | cons e l ih =>
      intro q
      unfold sweepDelayed
      split
      · rfl
      · refine (ih _).trans ?_
        split
        · rfl
        · exact pushReclaim_deadLettered q _
  exact (foldl_dropLease_deadLettered _ _).trans (hdelayed _ _)

/-- A claim pass: what it keeps of the counts, and what it diverts. -/
structure Counts (m : Nat) (ix : TopicIndex) (q : QueueProjection) (handed : List Nat)
    (st : ClaimPass) : Prop where
  housed : Housed st.q st.toDeadLetter
  counted : Counted m st.q (handed ++ st.leased.map (·.2.1))
  total : st.q.deadLettered = q.deadLettered + st.toDeadLetter.length
  live : ∀ x ∈ st.toDeadLetter, (ix.live x).isSome

theorem counts_runClaimCohort {m : Nat} {ix : TopicIndex} {head : Nat} {q : QueueProjection}
    {handed : List Nat} (hm : 0 < m) (h : Counted m q handed) (hhoused : Housed q [])
    (claimers : List Claimer) (deadline now : Int) :
    Counts m ix q handed (runClaimCohort q ix head claimers ⟨m, true, deadline⟩ now) := by
  -- taking a job out: it was countable, and is not counted while it is held
  have htake : ∀ {st : ClaimPass} {q' : QueueProjection} {x : Nat}, Counts m ix q handed st →
      st.q.nextClaimable ix head = (some x, q') →
      Housed q' (st.toDeadLetter ++ [x]) ∧ Counted m q' (handed ++ st.leased.map (·.2.1)) ∧
        q'.deadLettered = st.q.deadLettered ∧ (ix.live x).isSome ∧
        q'.deliveries.getD x 0 = (handed ++ st.leased.map (·.2.1)).count x := by
    intro st q' x hst hnext
    have hmoves : Moves ix head st.q q' st.toDeadLetter (st.toDeadLetter ++ [x]) :=
      moves_nextClaimable hnext
    have hhoused' := hst.housed.moves hmoves
    obtain ⟨reclaim, cursor, hq'⟩ := nextClaimable_eq hnext
    have hcounted : Counted m q' (handed ++ st.leased.map (·.2.1)) :=
      hst.counted.moves hmoves (fun y => by rw [count_append]; omega) fun y _ => by
        rw [hq']
    refine ⟨hhoused', hcounted, by rw [hq'], (nextClaimable_some hnext).2.1.1.1, ?_⟩
    have honce := hhoused'.once x
    have hspots := hmoves.spots x
    rw [Parted.spots_eq, count_append, count_singleton_self] at honce hspots
    rw [Parted.spots_eq st.q] at hspots
    have hpassed := passed_cases st.q.claimCursor q'.claimCursor x
    rw [show q'.deliveries = st.q.deliveries by rw [hq']]
    exact hst.counted.counts x (by omega)
  refine claimLoop_induct (P := Counts m ix q handed)
    (fun _ _ h => { h with }) ?_ ?_ ?_ _ ?_
  · intro st q' rr hst hnext
    have hmoves : Moves ix head st.q q' st.toDeadLetter st.toDeadLetter := by
      have := @moves_nextClaimable ix head st.q q' st.toDeadLetter none hnext
      rwa [Option.toList_none, append_nil] at this
    obtain ⟨reclaim, cursor, hq'⟩ := nextClaimable_eq hnext
    refine ⟨hst.housed.moves hmoves, hst.counted.moves hmoves (fun _ => le_rfl)
      fun y _ => by rw [hq'], ?_, hst.live⟩
    simp only
    rw [show q'.deadLettered = st.q.deadLettered by rw [hq'], hst.total]
  · -- diverted: held, and no longer counted
    intro st q' rr x hst hnext _
    obtain ⟨hhoused', hcounted, htotal, hlive, -⟩ := htake hst hnext
    have hsame : Moves ix head q' (st.divert q' rr x).q (st.toDeadLetter ++ [x])
        (st.toDeadLetter ++ [x]) := .of_spots rfl (fun _ => le_rfl) fun _ => id
    refine ⟨hhoused'.moves hsame, hcounted.moves hsame (fun _ => le_rfl) fun y hy => ?_,
      ?_, fun y hy => ?_⟩
    · have hne : x ≠ y := by
        rintro rfl
        have honce := hhoused'.once x
        have hbelow := hhoused'.below x
        rw [Parted.spots_eq, count_append, count_singleton_self] at honce hbelow
        rcases hy with hpos | hle
        · have hpos' : 0 < q'.spots [] x := hpos
          omega
        · have hle' : q'.claimCursor ≤ x := hle
          omega
      exact Std.TreeMap.getD_erase.trans (if_neg (by simpa using hne))
    · simp only [divert, length_append, length_singleton]
      have := hst.total
      omega
    · rcases mem_append.mp hy with hy | hy
      · exact hst.live y hy
      · rw [mem_singleton.mp hy]
        exact hlive
  · -- leased: one more delivery, within the bound
    intro st q' rr x hst hnext hlimit
    obtain ⟨hhoused', hcounted, htotal, -, hcount⟩ := htake hst hnext
    have hbound : q'.deliveries.getD x 0 + 1 ≤ m := by
      by_contra hlt
      exact hlimit ⟨hm, by simpa using hlt, rfl⟩
    have hx : x < q'.claimCursor := by
      refine hhoused'.below x ?_
      rw [Parted.spots_eq, count_append, count_singleton_self]
      omega
    have hcount' : ∀ y, (handed ++ (st.lease claimers ⟨m, true, deadline⟩ q' rr x).leased.map
        (·.2.1)).count y = (handed ++ st.leased.map (·.2.1)).count y + if x = y then 1 else 0 := by
      intro y
      simp only [lease, map_append, map_cons, map_nil, count_append,
        count_cons, count_nil, beq_iff_eq]
      omega
    have hlease : Moves ix head q' (st.lease claimers ⟨m, true, deadline⟩ q' rr x).q
        (st.toDeadLetter ++ [x]) st.toDeadLetter := moves_lease claimers _ st q' rr x
    refine ⟨hhoused'.moves hlease,
      ⟨fun y hy => ?_, fun y hy => ?_, fun y => ?_⟩, htotal.trans hst.total, hst.live⟩
    · rw [hcount']
      by_cases hxy : x = y
      · subst hxy
        rw [if_pos rfl, ← hcount]
        exact Std.TreeMap.getD_insert_self
      · rw [if_neg hxy, Nat.add_zero, ← hcounted.counts y (hy.imp_left fun hpos => ?_)]
        · exact Std.TreeMap.getD_insert.trans (if_neg (by simpa using hxy))
        · simpa [spots, lease, contains_insert_leases, hxy] using hpos
    · have hy' : q'.claimCursor ≤ y := hy
      rw [hcount', hcounted.fresh y hy', if_neg (by omega)]
    · rw [hcount']
      have := hcounted.bound y
      split
      · rename_i hxy
        subst hxy
        omega
      · omega
  · have hmoves := @moves_sweepExpired ix head [] q now
    refine ⟨hhoused.moves hmoves, ?_, ?_, fun x hx => by cases hx⟩
    · simp only [map_nil, append_nil]
      exact h.of_deliveries hmoves (by simp)
    · exact sweepExpired_deadLettered q now

theorem ackLeases_counts (q : QueueProjection) (node : String) (seqs : List Nat)
    (leaseIds : List (Option Nat)) (now : Int) :
    (q.ackLeases node seqs leaseIds now).1.deadLettered = q.deadLettered ∧
      ∀ x ∉ (q.ackLeases node seqs leaseIds now).2.map Prod.fst,
        (q.ackLeases node seqs leaseIds now).1.deliveries.getD x 0 = q.deliveries.getD x 0 := by
  unfold ackLeases
  rw [ackLoop_eq_heldLoop]
  refine heldLoop_induct (P := fun q' done => q'.deadLettered = q.deadLettered ∧
    ∀ x ∉ done.map Prod.fst, q'.deliveries.getD x 0 = q.deliveries.getD x 0)
    (fun q' done s l _ _ h => ?_) _ ?_
  · refine ⟨h.1, fun x hx => ?_⟩
    rw [map_append, mem_append, not_or] at hx
    have hne : s ≠ x := fun heq => hx.2 (by simp [heq])
    refine Eq.trans ?_ (h.2 x hx.1)
    exact Std.TreeMap.getD_erase.trans (if_neg (by simpa using hne))
  · exact ⟨sweepExpired_deadLettered q now, fun x _ => by rw [sweepExpired_deliveries]⟩

theorem nackLeases_counts (q : QueueProjection) (node : String) (seqs : List Nat)
    (leaseIds : List (Option Nat)) (delayMs : Nat) (now : Int) :
    (q.nackLeases node seqs leaseIds delayMs now).1.deadLettered = q.deadLettered ∧
      (q.nackLeases node seqs leaseIds delayMs now).1.deliveries = q.deliveries := by
  refine heldLoop_induct (P := fun q' _ => q'.deadLettered = q.deadLettered ∧
    q'.deliveries = q.deliveries) (fun q' done s l _ _ h => ?_) _
    ⟨sweepExpired_deadLettered q now, sweepExpired_deliveries q now⟩
  unfold nackOne
  simp only
  split
  · exact h
  · exact ⟨(pushReclaim_deadLettered _ s).trans h.1, (pushReclaim_deliveries _ s).trans h.2⟩

theorem extendLeases_counts (q : QueueProjection) (node : String) (seqs : List Nat)
    (leaseIds : List (Option Nat)) (leaseMs : Nat) (now : Int) :
    (q.extendLeases node seqs leaseIds leaseMs now).1.deadLettered = q.deadLettered ∧
      (q.extendLeases node seqs leaseIds leaseMs now).1.deliveries = q.deliveries := by
  refine heldLoop_induct (P := fun q' _ => q'.deadLettered = q.deadLettered ∧
    q'.deliveries = q.deliveries) (fun q' done s l _ _ h => ?_) _
    ⟨sweepExpired_deadLettered q now, sweepExpired_deliveries q now⟩
  exact h

theorem releaseConn_counts (q : QueueProjection) (conn : Nat) :
    (q.releaseConn conn).1.deadLettered = q.deadLettered ∧
      (q.releaseConn conn).1.deliveries = q.deliveries := by
  rw [releaseConn_eq_foldl]
  exact ⟨foldl_dropLease_deadLettered _ q, (foldl_dropLease_fields _ q).1⟩

/-! ## One step -/

namespace QueueInstr

/-- The diverted jobs a step has in its hands, up to the append of their copies. -/
def letters : QueueInstr → List Nat
  | .openDeadLetter _ seqs _ | .putDeadLetter _ seqs _ | .copyJobs seqs _
  | .appendDeadLetter seqs _ _ => seqs
  | _ => []

/-- No job is on its way back, and every job of a dead-letter pass has its copy. -/
def Clean : QueueInstr → Prop
  | .requeue _ | .reclaimSeq _ => False
  | .appendDeadLetter seqs copies _ => copies.map Prod.fst = seqs
  | _ => True

def inPass : QueueInstr → Bool
  | .claim .. | .openDeadLetter .. | .putDeadLetter .. | .copyJobs .. | .appendDeadLetter ..
  | .requeue _ | .purge .. => true
  | _ => false

end QueueInstr

def letters (code : List QueueInstr) : List Nat := code.flatMap QueueInstr.letters

/-- Only the next step of a call has diverted jobs in its hands. -/
structure Lettered (code : List QueueInstr) : Prop where
  clean : ∀ i ∈ code, i.Clean
  tail : letters code.tail = []

namespace QueueRun

/-- **Condition**: the operations of acks and dead-letter passes succeed, and neither retention nor
a delete takes away a job that is being moved. -/
def Spared (s : QueueRun) (ok : Bool) : QueueInstr → Prop
  | .putDeadLetter .. => s.deadLetter = none → ok = true
  | .appendDeadLetter .. => ok = true
  | .purge .. | .settle .. => s.fsync = true → ok = true
  | .floor (.reclaim head) =>
    ∀ e ∈ s.diverting, s.topic.floors.earliestSeq s.topic.seqBase head ≤ e.2
  | .floor (.removeSeqs _) =>
    ∀ e ∈ s.diverting, s.topic.floors.earliestSeq s.topic.seqBase s.topic.headSeq ≤ e.2
  | .floor (.select ..) => s.diverting = []
  | _ => True

instance (s : QueueRun) (ok : Bool) : ∀ i, Decidable (Spared s ok i)
  | .putDeadLetter .. =>
    decidable_of_iff (s.deadLetter.isNone = true → ok = true) (by rw [Option.isNone_iff_eq_none]; rfl)
  | .appendDeadLetter .. => inferInstanceAs (Decidable (ok = true))
  | .purge .. | .settle .. => inferInstanceAs (Decidable (s.fsync = true → ok = true))
  | .floor (.reclaim head) => inferInstanceAs (Decidable
      (∀ e ∈ s.diverting, s.topic.floors.earliestSeq s.topic.seqBase head ≤ e.2))
  | .floor (.removeSeqs _) => inferInstanceAs (Decidable
      (∀ e ∈ s.diverting, s.topic.floors.earliestSeq s.topic.seqBase s.topic.headSeq ≤ e.2))
  | .floor (.select ..) => inferInstanceAs (Decidable (s.diverting = []))
  | .floor .lock | .floor .unlock | .floor (.readHead ..) | .floor (.plan ..)
  | .floor (.harden ..) | .floor (.commit ..) | .floor (.admitWrite _) | .floor (.stage _)
  | .floor (.publish ..) | .floor (.takeBound ..) | .floor (.awaitTurn _) | .floor .release
  | .claim .. | .openDeadLetter .. | .copyJobs .. | .requeue _ | .ack .. | .reclaimSeq _
  | .nack .. | .extend .. | .releaseConn _ | .sweep _ => isTrue trivial

def Undisturbed (s : Threads QueueRun QueueInstr) : ThreadAction QueueCall Bool → Prop
  | .start .. => True
  | .run t ok => ∀ i ∈ (s.code t).head?, Spared s.shared ok i

instance (s : Threads QueueRun QueueInstr) : ∀ a, Decidable (Undisturbed s a)
  | .start .. => isTrue trivial
  | .run t ok => inferInstanceAs (Decidable (∀ i ∈ (s.code t).head?, Spared s.shared ok i))

/-- The invariant of the state; `own` says which diverted jobs each thread has in its hands. -/
structure Letters (m : Nat) (q : QueueProjection) (own : Nat → List Nat) (s : QueueRun) : Prop where
  limit : s.topic.config.maxDeliveries = m
  named : s.topic.config.deadLetter.isSome = true
  counted : Counted m q s.handed
  total : q.deadLettered = s.copied.length + s.diverting.length
  kept : ∀ x ∈ s.diverted, x ∈ s.copied ∨ ∃ t, (t, x) ∈ s.diverting
  live : ∀ e ∈ s.diverting, (s.topic.index.live e.2).isSome
  own : ∀ t, (s.diverting.filter (·.1 = t)).map Prod.snd = own t

variable {Blob : Type} {S : Serde Blob} {resolve : Nat → Value × Option Value} {deadLetterId : Nat}
  {m : Nat} {q : QueueProjection} {own : Nat → List Nat} {s : QueueRun} {t : Nat} {ok : Bool}
  {i : QueueInstr} {rest : List QueueInstr} {o : Outcome QueueRun QueueInstr}

variable {s' : QueueRun} {q' : QueueProjection} {more : List QueueInstr} {now : Int}

theorem Letters.same (h : Letters m q own s) (hconfig : s'.topic.config = s.topic.config)
    (hhistory : s'.handed = s.handed ∧ s'.diverted = s.diverted ∧ s'.diverting = s.diverting ∧
      s'.copied = s.copied) (hcounted : Counted m q' s.handed)
    (htotal : q'.deadLettered = q.deadLettered)
    (hlive : ∀ e ∈ s.diverting, (s.topic.index.live e.2).isSome → (s'.topic.index.live e.2).isSome) :
    Letters m q' own s' := by
  obtain ⟨hhanded, hdiverted, hdiverting, hcopied⟩ := hhistory
  constructor
  · rw [hconfig]
    exact h.limit
  · rw [hconfig]
    exact h.named
  · rw [hhanded]
    exact hcounted
  · rw [hcopied, hdiverting]
    exact htotal.trans h.total
  · rw [hdiverted, hcopied, hdiverting]
    exact h.kept
  · rw [hdiverting]
    exact fun e he => hlive e he (h.live e he)
  · rw [hdiverting]
    exact h.own

theorem Letters.floor (h : Letters m q own s) {i : FloorInstr} {fo : Outcome FloorState FloorInstr}
    (hspared : Spared s ok (.floor i)) (hfree : ∀ e ∈ s.diverting, e.2 ∉ (QueueInstr.floor i).seqs)
    (hsem : FloorState.sem s.floor t ok i = some fo) : Letters m q own (fo.inQueue s).shared := by
  have htopic : (fo.inQueue s).shared.topic = fo.shared.topic := by cases fo <;> rfl
  refine h.same ?_ (by cases fo <;> exact ⟨rfl, rfl, rfl, rfl⟩) h.counted rfl fun e he hlive => ?_
  · rw [htopic]
    exact config_of_sem hsem
  · rw [htopic]
    have hstep := topicStep_of_sem hsem
    generalize fo.shared.topic = b at hstep
    cases hstep with
    | same => exact hlive
    | commit plan =>
      rw [commitFloors_index]
      exact hlive
    | reclaim head =>
      have hfloor : ¬ e.2 < s.floor.topic.floors.earliestSeq s.floor.topic.seqBase head :=
        (hspared e he).not_gt
      rw [live_reclaimFront, if_neg hfloor]
      exact hlive
    | select beforeSeq match_ bound =>
      rw [show s.diverting = [] from hspared] at he
      cases he
    | removeSeqs seqs =>
      have hgone : (s.floor.topic.markSeqs seqs).index.live e.2 = s.floor.topic.index.live e.2 :=
        (live_markAll _ seqs e.2).trans (if_neg (hfree e he))
      have hfloor : ¬ e.2 < (s.floor.topic.markSeqs seqs).floors.earliestSeq
          (s.floor.topic.markSeqs seqs).seqBase s.floor.topic.headSeq :=
        (hspared e he).not_gt
      rw [deleteSeqs, live_reclaimFront, if_neg hfloor, hgone]
      exact hlive
    | stage stored =>
      obtain ⟨r, hr⟩ := Option.isSome_iff_exists.mp hlive
      exact Option.isSome_iff_exists.mpr ⟨r, TopicIndex.live_pushAll_of_live hr stored⟩
    | publish g k =>
      rw [publishStagedNoSeal_index, reserveFor_index]
      exact hlive

/-- What a step does to the invariant; `o.code []` is what the call goes on with. -/
def Passes (m : Nat) (own : Nat → List Nat) (t : Nat) (o : Outcome QueueRun QueueInstr) : Prop :=
  Lettered (o.code []) ∧ ∃ q', o.shared.topic.queue = some q' ∧
    Letters m q' (update own t (letters (o.code []))) o.shared

theorem Letters.passes (h : Letters m q' own s') (hq : s'.topic.queue = some q')
    (hclean : ∀ j ∈ more, j.Clean) (htail : letters more.tail = []) (hown : own t = letters more) :
    Passes m own t (.next s' more) := by
  have hcode : (next s' more).code [] = more := append_nil more
  rw [Passes, hcode, ← hown, update_eq_self]
  exact ⟨⟨hclean, htail⟩, q', hq, h⟩

theorem Letters.stop (h : Letters m q own s) (hq : s.topic.queue = some q) (hown : own t = []) :
    Passes m own t (.stop s) := by
  refine ⟨⟨forall_mem_nil _, rfl⟩, q, hq, ?_⟩
  have hnone : own t = letters ((Outcome.stop s).code []) := hown
  rw [← hnone, update_eq_self]
  exact h

theorem Letters.section (h : Letters m q own s) (hcounted : Counted m q' s.handed)
    (htotal : q'.deadLettered = q.deadLettered) (hown : own t = [])
    (hmore : ∀ j ∈ more, j.Clean ∧ j.letters = []) :
    Passes m own t (.next (s.setQueue q') more) := by
  have hnone : ∀ code : List QueueInstr, (∀ j ∈ code, j ∈ more) → letters code = [] := fun code hcode =>
    flatMap_eq_nil_iff.mpr fun j hj => (hmore j (hcode j hj)).2
  have hnew : Letters m q' own (s.setQueue q') :=
    h.same rfl ⟨rfl, rfl, rfl, rfl⟩ hcounted htotal fun _ _ => id
  refine hnew.passes rfl (fun j hj => (hmore j hj).1) (hnone _ fun j hj => mem_of_mem_tail hj) ?_
  rw [hown, hnone more fun _ => id]

theorem copies_fst (S : Serde Blob) (resolve : Nat → Value × Option Value) {seqs : List Nat}
    (h : ∀ x ∈ seqs, (s.topic.index.live x).isSome) :
    (s.copies S resolve seqs now).map Prod.fst = seqs := by
  unfold copies
  induction seqs with
  | nil => rfl
  | cons x seqs ih =>
    obtain ⟨r, hr⟩ := Option.isSome_iff_exists.mp (h x mem_cons_self)
    have hrest := ih fun y hy => h y (mem_cons_of_mem _ hy)
    simp only [filterMap_cons, hr, Option.map_some, map_cons, hrest]

theorem length_divertDone (s : QueueRun) (t : Nat) :
    s.diverting.length = (s.diverting.filter (·.1 = t)).length + (s.divertDone t).length := by
  unfold divertDone
  induction s.diverting with
  | nil => rfl
  | cons e l ih =>
    by_cases he : e.1 = t <;> simp [he, ih] <;> omega

/-- **The append of the copies.** -/
theorem Letters.append (h : Letters m q own s) (hq : s.topic.queue = some q)
    (hfloor : s'.floor = s.floor) (hhanded : s'.handed = s.handed)
    (hdiverted : s'.diverted = s.diverted) (hdiverting : s'.diverting = s.divertDone t)
    (hcopied : s'.copied = s.copied ++ own t) :
    Passes m own t (.next s' [.purge (own t) now]) := by
  have htopic : s'.topic = s.topic := congrArg FloorState.topic hfloor
  have hlen : (s.diverting.filter (·.1 = t)).length = (own t).length := by
    rw [← h.own t, length_map]
  have hmem : ∀ t' x, (t', x) ∈ s.divertDone t ↔ (t', x) ∈ s.diverting ∧ t' ≠ t := fun t' x => by
    simp [divertDone]
  refine ⟨⟨fun j hj => ?_, rfl⟩, q, ?_, ?_, ?_, ?_, ?_, ?_, ?_, ?_⟩
  · cases mem_singleton.mp hj
    trivial
  · exact (congrArg queue htopic).trans hq
  · exact (congrArg (·.config.maxDeliveries) htopic).trans h.limit
  · exact (congrArg (·.config.deadLetter.isSome) htopic).trans h.named
  · exact hhanded ▸ h.counted
  · have htotal := h.total
    have hparts := length_divertDone s t
    change q.deadLettered = s'.copied.length + s'.diverting.length
    rw [hcopied, hdiverting, length_append]
    omega
  · intro x hx
    rw [shared, hdiverted] at hx
    rw [shared, hcopied, hdiverting, mem_append]
    rcases h.kept x hx with hx | ⟨t', hx⟩
    · exact .inl (.inl hx)
    · by_cases ht : t' = t
      · subst ht
        refine .inl (.inr ?_)
        rw [← h.own t']
        exact mem_map.mpr ⟨(t', x), mem_filter.mpr ⟨hx, by simp⟩, rfl⟩
      · exact .inr ⟨t', (hmem t' x).mpr ⟨hx, ht⟩⟩
  · intro e he
    rw [shared, hdiverting] at he
    rw [shared, htopic]
    exact h.live e ((hmem e.1 e.2).mp he).1
  · intro t'
    rw [shared, hdiverting, divertDone, filter_filter]
    by_cases ht : t' = t
    · subst ht
      rw [update_self]
      have hnone : s.diverting.filter (fun e => decide (e.1 = t') && decide (e.1 ≠ t')) = [] := by
        simp
      rw [hnone]
      rfl
    · rw [update_of_ne ht, ← h.own t']
      refine congrArg (map Prod.snd) (filter_congr fun e _ => ?_)
      by_cases he : e.1 = t'
      · simp [he, ht]
      · simp [he]

/-- **The claim pass.** -/
theorem Letters.claim (h : Letters m q own s) (hm : 0 < m) (hhoused : Housed q [])
    (hown : own t = []) (claimers : List Claimer) (leaseMs : Option Nat) (now : Int) (hs' : s' =
      { s.setQueue (s.claimPass q claimers leaseMs now).q with
      handed := s.handed ++ (s.claimPass q claimers leaseMs now).leased.map (·.2.1)
      diverted := s.diverted ++ (s.claimPass q claimers leaseMs now).toDeadLetter
      diverting := s.diverting ++
      (s.claimPass q claimers leaseMs now).toDeadLetter.map fun x => (t, x) }) :
    Passes m own t
      (.next s' (afterClaim s.topic.config.deadLetter (s.claimPass q claimers leaseMs now) now)) := by
  have hpass : Counts m s.topic.index q s.handed (s.claimPass q claimers leaseMs now) := by
    unfold claimPass
    rw [h.limit, h.named]
    exact counts_runClaimCohort hm h.counted hhoused claimers _ now
  generalize s.claimPass q claimers leaseMs now = pass at hpass hs' ⊢
  obtain ⟨name, hname⟩ := Option.isSome_iff_exists.mp h.named
  rw [hname]
  have hletters : letters (afterClaim (some name) pass now) = pass.toDeadLetter ∧
      Lettered (afterClaim (some name) pass now) := by
    unfold afterClaim
    simp only
    split
    · rename_i hnone
      exact ⟨(isEmpty_iff.mp hnone).symm, ⟨nofun, rfl⟩⟩
    · refine ⟨append_nil _, ⟨fun j hj => ?_, rfl⟩⟩
      cases mem_singleton.mp hj
      trivial
  have hcode : (next s' (afterClaim (some name) pass now)).code [] =
      afterClaim (some name) pass now := append_nil _
  rw [Passes, hcode, hletters.1]
  subst hs'
  refine ⟨hletters.2, pass.q, rfl, h.limit, h.named, hpass.counted, ?_, ?_, ?_, ?_⟩
  · have htotal := h.total
    have hmore := hpass.total
    simp only [shared, setQueue, length_append, length_map]
    omega
  · intro x hx
    rcases mem_append.mp hx with hx | hx
    · exact (h.kept x hx).imp_right fun hex => hex.imp fun t' ht' => mem_append_left _ ht'
    · exact .inr ⟨t, mem_append_right _ (mem_map.mpr ⟨x, hx, rfl⟩)⟩
  · intro e he
    rcases mem_append.mp he with he | he
    · exact h.live e he
    · obtain ⟨x, hx, rfl⟩ := mem_map.mp he
      exact hpass.live x hx
  · intro t'
    have hold := h.own t'
    simp only [shared, filter_append, map_append]
    by_cases ht : t' = t
    · subst ht
      rw [update_self, hold, hown]
      simp [filter_map, comp_def]
    · rw [update_of_ne ht, hold]
      simp [filter_map, comp_def, Ne.symm ht]

/-- **One step of a thread.** -/
theorem Letters.step (h : Letters m q own s) (hm : 0 < m) (hq : s.topic.queue = some q)
    (hhoused : Housed q []) (hown : own t = i.letters) (hclean : i.Clean) (hspared : Spared s ok i)
    (hfree : ∀ e ∈ s.diverting, i.letters = [] → e.2 ∉ i.seqs)
    (hsem : sem S resolve deadLetterId s t ok i = some o) : Passes m own t o := by
  have hown_live : ∀ x ∈ own t, (s.topic.index.live x).isSome := by
    intro x hx
    rw [← h.own t] at hx
    obtain ⟨e, he, rfl⟩ := mem_map.mp hx
    exact h.live e (mem_filter.mp he).1
  have hsingle : ∀ {P : QueueInstr → Prop} {j : QueueInstr}, P j → ∀ k ∈ [j], P k :=
    fun hj k hk => mem_singleton.mp hk ▸ hj
  have hok : (s.fsync = true → ok = true) → (s.fsync && !ok) = false := by
    cases s.fsync <;> cases ok <;> simp
  cases i with
  | floor j =>
    obtain ⟨fo, hfo, rfl⟩ := Option.map_eq_some_iff.mp hsem
    have hnew := h.floor hspared (fun e he => hfree e he rfl) hfo
    have hq' : (fo.inQueue s).shared.topic.queue = some q := by
      have htopic : (fo.inQueue s).shared.topic = fo.shared.topic := by cases fo <;> rfl
      rw [htopic, queue_of_sem hfo]
      exact hq
    cases fo with
    | stop f =>
      exact hnew.stop hq' hown
    | next f more =>
      have hmore : ∀ code : List FloorInstr, letters (code.map .floor) = [] := fun code => by
        refine flatMap_eq_nil_iff.mpr fun k hk => ?_
        obtain ⟨_, _, rfl⟩ := mem_map.mp hk
        rfl
      refine hnew.passes hq' (fun k hk => ?_) ?_ (hown.trans (hmore more).symm)
      · obtain ⟨_, _, rfl⟩ := mem_map.mp hk
        trivial
      · rw [← map_tail]
        exact hmore _
  | claim claimers leaseMs now =>
    obtain rfl := eq_of_map hq hsem
    exact h.claim hm hhoused hown claimers leaseMs now rfl
  | openDeadLetter name seqs now =>
    cases hsem
    refine h.passes hq (hsingle ?_) rfl (hown.trans ?_)
    · split <;> trivial
    · simp only [letters, flatMap_singleton]
      split <;> rfl
  | putDeadLetter name seqs now =>
    have hcopy : ∀ d, Passes m own t (.next { s with deadLetter := d } [.copyJobs seqs now]) := by
      intro d
      have hnew : Letters m q own { s with deadLetter := d } :=
        h.same rfl ⟨rfl, rfl, rfl, rfl⟩ h.counted rfl fun _ _ => id
      exact hnew.passes hq (hsingle (show (copyJobs seqs now).Clean from trivial)) rfl
        (hown.trans (append_nil _).symm)
    simp only [sem] at hsem
    split at hsem
    · rename_i hnone
      rw [if_pos (hspared hnone)] at hsem
      cases hsem
      exact hcopy _
    · cases hsem
      split
      · exact hcopy _
      · exact hcopy s.deadLetter
  | copyJobs seqs now =>
    cases hsem
    have hown' : own t = seqs := hown
    refine h.passes hq (hsingle ?_) rfl (hown.trans (append_nil _).symm)
    exact copies_fst S resolve fun x hx => hown_live x (hown' ▸ hx)
  | appendDeadLetter seqs copies now =>
    have hown' : own t = seqs := hown
    have hclean' : copies.map Prod.fst = seqs := hclean
    simp only [sem] at hsem
    split at hsem
    · rename_i hnone
      cases hsem
      rw [← hown']
      refine h.append hq rfl rfl rfl rfl ?_
      rw [hown', ← hclean', isEmpty_iff.mp hnone]
      exact (append_nil _).symm
    · rw [if_pos (show ok = true from hspared)] at hsem
      cases hsem
      rw [← hown']
      refine h.append hq rfl rfl rfl rfl ?_
      rw [hown', hclean']
  | requeue | reclaimSeq => exact hclean.elim
  | purge seqs now =>
    cases seqs with
    | nil =>
      cases hsem
      exact h.passes hq (fun k hk => by cases hk) rfl hown
    | cons x seqs =>
      cases hsem
      rw [hok hspared]
      refine h.passes hq ?_ rfl hown
      simp only [Bool.false_eq_true, if_false, mem_cons, not_mem_nil, or_false]
      rintro k (rfl | rfl) <;> trivial
  | ack node seqs leaseIds now =>
    rcases refused_or_eq hq hsem with rfl | rfl
    · exact h.stop hq hown
    · obtain ⟨htotal, hcounts⟩ := ackLeases_counts q node seqs leaseIds now
      have hmoves := @moves_ackLeases s.topic.index s.topic.headSeq [] q node seqs leaseIds now
      refine h.section (h.counted.moves hmoves (fun x => by simp) fun x hx => hcounts x fun hmem => ?_)
        htotal hown (hsingle ⟨trivial, rfl⟩)
      -- an acked job is in the hands of the call, so it cannot be handed out
      have hhoused' := hhoused.moves hmoves
      have honce := hhoused'.once x
      have hbelow := hhoused'.below x
      have hcount := count_pos_iff.mpr hmem
      rw [nil_append, Parted.spots_eq] at honce hbelow
      rcases hx with hpos | hle <;> omega
  | settle seqs now =>
    cases seqs with
    | nil =>
      cases hsem
      refine h.passes hq ?_ rfl hown
      simp only [counters, mem_cons, not_mem_nil, or_false]
      rintro k (rfl | rfl) <;> trivial
    | cons x seqs =>
      simp only [sem, hok hspared] at hsem
      cases hsem
      refine h.passes hq ?_ rfl hown
      simp only [mem_cons, not_mem_nil, or_false]
      rintro k (rfl | rfl) <;> trivial
  | nack node seqs leaseIds delayMs now =>
    rcases refused_or_eq hq hsem with rfl | rfl
    · exact h.stop hq hown
    · obtain ⟨htotal, hcounts⟩ := nackLeases_counts q node seqs leaseIds delayMs now
      refine h.section (h.counted.of_deliveries
        (@moves_nackLeases s.topic.index s.topic.headSeq [] q node seqs leaseIds delayMs now) hcounts)
        htotal hown ?_
      simp only [counters, mem_cons, not_mem_nil, or_false]
      rintro k (rfl | rfl) <;> exact ⟨trivial, rfl⟩
  | extend node seqs leaseIds leaseMs now =>
    rcases refused_or_eq hq hsem with rfl | rfl
    · exact h.stop hq hown
    · obtain ⟨htotal, hcounts⟩ := extendLeases_counts q node seqs leaseIds leaseMs now
      exact h.section (h.counted.of_deliveries
        (@moves_extendLeases s.topic.index s.topic.headSeq [] q node seqs leaseIds leaseMs now) hcounts)
        htotal hown fun k hk => by cases hk
  | releaseConn conn =>
    obtain rfl := eq_of_map hq hsem
    obtain ⟨htotal, hcounts⟩ := releaseConn_counts q conn
    exact h.section (h.counted.of_deliveries
      (@moves_releaseConn s.topic.index s.topic.headSeq [] q conn) hcounts)
      htotal hown fun k hk => by cases hk
  | sweep now =>
    obtain rfl := eq_of_map hq hsem
    exact h.section (h.counted.of_deliveries
      (@moves_sweepExpired s.topic.index s.topic.headSeq [] q now) (sweepExpired_deliveries q now))
      (sweepExpired_deadLettered q now) hown fun k hk => by cases hk

/-! ## Whole runs -/

theorem letters_append (code rest : List QueueInstr) :
    letters (code ++ rest) = letters code ++ letters rest := flatMap_append

theorem mem_carried_of_letters {code : List QueueInstr} {x : Nat} (h : x ∈ letters code) :
    x ∈ carried code := by
  obtain ⟨j, hj, hx⟩ := mem_flatMap.mp h
  refine mem_flatMap.mpr ⟨j, hj, ?_⟩
  cases j <;> first | exact hx | cases hx

def Conserved (m : Nat) (s : Threads QueueRun QueueInstr) : Prop :=
  (∀ t, Lettered (s.code t)) ∧ ∃ line q, Sorted line q s ∧
    Letters m q (fun t => letters (s.code t)) s.shared

theorem lettered_body (c : QueueCall) : Lettered c.body ∧ letters c.body = [] := by
  have hbody : ∀ i ∈ c.body, i.Clean ∧ i.letters = [] := by
    cases c <;> simp [QueueCall.body, QueueInstr.counters, QueueInstr.Clean, QueueInstr.letters]
  refine ⟨⟨fun i hi => (hbody i hi).1, flatMap_eq_nil_iff.mpr fun i hi => ?_⟩,
    flatMap_eq_nil_iff.mpr fun i hi => (hbody i hi).2⟩
  exact (hbody i (mem_of_mem_tail hi)).2

theorem lettered_code (o : Outcome QueueRun QueueInstr) (hnew : Lettered (o.code []))
    (hclean : ∀ i ∈ rest, i.Clean) (hrest : letters rest = []) :
    Lettered (o.code rest) ∧ letters (o.code rest) = letters (o.code []) := by
  cases o with
  | stop s => exact ⟨hnew, rfl⟩
  | next s more =>
    have hcode : (next s more).code [] = more := append_nil more
    rw [hcode] at hnew ⊢
    refine ⟨⟨forall_mem_append.mpr ⟨hnew.clean, hclean⟩, ?_⟩, ?_⟩
    · cases more with
      | nil =>
        refine flatMap_eq_nil_iff.mpr fun j hj => ?_
        exact flatMap_eq_nil_iff.mp hrest j (mem_of_mem_tail hj)
      | cons j more =>
        have htail : letters more = [] := hnew.tail
        change letters (more ++ rest) = []
        rw [letters_append, htail, hrest]
        rfl
    · change letters (more ++ rest) = letters more
      rw [letters_append, hrest, append_nil]

/-- **One step.** -/
theorem Conserved.step (hm : 0 < m) {s s' : Threads QueueRun QueueInstr}
    {a : ThreadAction QueueCall Bool} (h : Conserved m s) (ha : Undisturbed s a)
    (hstep : QueueRun.step S resolve deadLetterId s a = some s') : Conserved m s' := by
  obtain ⟨hcodes, line, q, hsorted, hletters⟩ := h
  obtain ⟨line', q', hsorted'⟩ := hsorted.step hstep
  have hupdate : ∀ t code, (fun t' => letters (update s.code t code t')) =
      update (fun t' => letters (s.code t')) t (letters code) := fun t code =>
    funext (apply_update (fun _ => letters) s.code t code)
  have hlettered : ∀ t code, Lettered code → ∀ t', Lettered (update s.code t code t') :=
    fun t code hcode => (forall_update_iff s.code fun _ => Lettered).mpr
      ⟨hcode, fun t' _ => hcodes t'⟩
  rcases Threads.step_cases _ _ hstep with
    ⟨t, c, rfl, hcode, rfl⟩ | ⟨t, ok, i, rest, o, rfl, hcode, hsem, rfl⟩
  · obtain ⟨hbody, hnone⟩ := lettered_body c
    refine ⟨hlettered t _ hbody, line', q', hsorted', ?_⟩
    obtain rfl : q = q' := Option.some.inj (hsorted.queue.symm.trans hsorted'.queue)
    have hsame : letters c.body = letters (s.code t) := by
      rw [hnone, hcode]
      rfl
    simp only [hupdate, hsame]
    rw [update_eq_self]
    exact hletters
  · have hmine := hcodes t
    rw [hcode] at hmine
    have hown : letters (s.code t) = i.letters := by
      rw [hcode]
      change i.letters ++ letters rest = i.letters
      rw [show letters rest = [] from hmine.tail, append_nil]
    have hspared : Spared s.shared ok i := ha i (by rw [hcode]; rfl)
    have hhoused : Housed q [] := by
      refine ⟨fun x => ?_, fun x hpos => hsorted.parted.below 0 x ?_⟩
      · have honce := hsorted.parted.once 0 x
        rw [Parted.spots_eq] at honce
        omega
      · rw [Parted.spots_eq]
        omega
    -- a job in the hands of another thread is not in the hands of this one
    have hfree : ∀ e ∈ s.shared.diverting, i.letters = [] → e.2 ∉ i.seqs := by
      intro e he hnone hmem
      have hheld : e.2 ∈ letters (s.code e.1) := by
        rw [← hletters.own e.1]
        exact mem_map.mpr ⟨e, mem_filter.mpr ⟨he, by simp⟩, rfl⟩
      by_cases ht : e.1 = t
      · rw [ht, hown, hnone] at hheld
        cases hheld
      · refine hsorted.parted.apart e.1 t e.2 ht (mem_carried_of_letters hheld) ?_
        rw [hcode]
        exact mem_append_left _ hmem
    obtain ⟨hnew, q'', hq'', hnext⟩ := hletters.step hm hsorted.queue hhoused hown
      (hmine.clean i mem_cons_self) hspared hfree hsem
    obtain ⟨hafter, hsame⟩ := lettered_code o hnew
      (fun j hj => hmine.clean j (mem_cons_of_mem _ hj)) hmine.tail
    refine ⟨hlettered t _ hafter, line', q', hsorted', ?_⟩
    obtain rfl : q'' = q' := Option.some.inj (hq''.symm.trans hsorted'.queue)
    simp only [hupdate, hsame]
    exact hnext

theorem conserved_start {spec : TopicSpec} (hqueue : spec.config.isQueue = true)
    (hdead : spec.config.deadLetter.isSome = true) (deadLetter : Option TopicState) :
    Conserved spec.config.maxDeliveries (start spec deadLetter) := by
  refine ⟨fun _ => ⟨forall_mem_nil _, rfl⟩, [], _, sorted_start hqueue deadLetter, rfl, hdead,
    ⟨fun x _ => ?_, fun x _ => rfl, fun x => Nat.zero_le _⟩, rfl, ?_, ?_, fun t => rfl⟩
  · simp [QueueProjection.new, start]
  · intro x hx
    cases hx
  · intro e he
    cases he

/-- A job is written, claimed and given back; the next claim, at the end of the run, diverts it. -/
def givenBack : List (ThreadAction QueueCall Bool) :=
  call 1 (.write [.plain none] 0) (succeeds 7) ++
    call 1 (.claim [⟨"a", 1, none⟩] none 0) (succeeds 2) ++ call 1 (.nack "a" [1] [] 0 1) (succeeds 3)

end QueueRun

end Topics
