import Topics.CohortLeaders

/-!
# What a coalesced claim receives

The claims of a cohort are served by one pass, which its leader runs with its own `lease_ms`; the
slices go back by position.
-/

namespace Topics

open Lib Function QueueProjection PendingClaimer ClaimStep List Option Coordinator

/-! ## The pass -/

namespace ClaimPass

variable {ix : TopicIndex} {head : Nat} {claimers : List Claimer} {terms : ClaimTerms}
  {st : ClaimPass}

def demand (c : Claimer) : Nat := max 1 (min c.max maxClaim)

/-- What the loop has handed out so far, and to whom. -/
structure Handed (claimers : List Claimer) (terms : ClaimTerms) (st : ClaimPass) : Prop where
  leased : ∀ e ∈ st.leased, ∃ c, claimers[e.1]? = some c ∧
    st.q.leases[e.2.1]? = some ⟨c.node, e.2.2.1, terms.deadlineMs, c.workConn⟩
  once : (st.leased.map fun e => e.2.1).Nodup
  demand : ∀ i, (st.leased.filter fun e => e.1 = i).length + st.remaining.getD i 0 =
    (claimers.map ClaimPass.demand).getD i 0
  length : st.remaining.length = claimers.length

theorem not_leased_of_nextClaimable {q q' : QueueProjection} {seq : Nat}
    (h : q.nextClaimable ix head = (some seq, q')) :
    q'.leases[seq]? = none ∧ q'.leases = q.leases := by
  obtain ⟨hleases, ⟨⟨-, hidle⟩, -⟩, -⟩ := nextClaimable_some h
  refine ⟨?_, hleases⟩
  rw [hleases]
  exact Std.TreeMap.getElem?_eq_none_of_contains_eq_false hidle

theorem Handed.lease (h : Handed claimers terms st) {q : QueueProjection} {rr seq : Nat}
    (hnext : st.q.nextClaimable ix head = (some seq, q)) (hrr : st.remaining.getD rr 0 ≠ 0) :
    Handed claimers terms (st.lease claimers terms q rr seq) := by
  obtain ⟨hnone, hsame⟩ := not_leased_of_nextClaimable hnext
  have hlt : rr < st.remaining.length := by
    by_contra hge
    exact hrr (by simp [getD_eq_getElem?_getD, getElem?_eq_none (not_lt.mp hge)])
  obtain ⟨c, hc⟩ : ∃ c, claimers[rr]? = some c := ⟨_, getElem?_eq_getElem (h.length ▸ hlt)⟩
  -- an earlier lease is of another job
  have hne : ∀ e ∈ st.leased, e.2.1 ≠ seq := by
    rintro e he rfl
    obtain ⟨c', -, hl⟩ := h.leased e he
    rw [← hsame, hnone] at hl
    cases hl
  refine ⟨fun e he => ?_, ?_, fun i => ?_, ?_⟩
  · rcases mem_append.mp he with he | he
    · obtain ⟨c', hc', hl⟩ := h.leased e he
      refine ⟨c', hc', ?_⟩
      have hcmp : compare seq e.2.1 ≠ .eq := fun hcontra =>
        hne e he (Nat.compare_eq_eq.mp hcontra).symm
      simp only [ClaimPass.lease, Std.TreeMap.getElem?_insert, hcmp, if_false, hsame]
      exact hl
    · rw [mem_singleton] at he
      subst he
      exact ⟨c, hc, by simp [ClaimPass.lease, hc]⟩
  · simp only [ClaimPass.lease, map_append, map_cons, map_nil]
    refine nodup_append.mpr ⟨h.once, nodup_singleton _, ?_⟩
    intro a ha b hb hab
    obtain ⟨e, he, rfl⟩ := mem_map.mp ha
    exact hne e he (hab.trans (mem_singleton.mp hb))
  · have hold := h.demand i
    by_cases hi : i = rr
    · subst hi
      simp only [ClaimPass.lease, filter_append, length_append]
      have hset : (st.remaining.set i (st.remaining.getD i 0 - 1)).getD i 0 =
          st.remaining.getD i 0 - 1 := by
        simp [getD_eq_getElem?_getD, hlt]
      rw [hset]
      simp only [decide_true, filter_cons_of_pos, filter_nil, length_cons,
        length_nil]
      omega
    · have hset : (st.remaining.set rr (st.remaining.getD rr 0 - 1)).getD i 0 =
          st.remaining.getD i 0 := by
        simp [getD_eq_getElem?_getD, Ne.symm hi]
      have hother : (([(rr, seq, q.nextLeaseId, q.deliveries.getD seq 0 + 1)] :
          List (Nat × Nat × Nat × Nat)).filter fun e => e.1 = i) = [] := by
        simp [Ne.symm hi]
      simp only [ClaimPass.lease, filter_append, length_append, hset, hother,
        length_nil]
      exact hold
  · simp only [ClaimPass.lease, length_set]
    exact h.length

/-- **What a pass hands out.**  Every lease is the one of the claimer it was given to, no job is
leased twice, and nobody gets more than the clamped `max`. -/
theorem handed_runClaimCohort (q : QueueProjection) (ix : TopicIndex) (head : Nat)
    (claimers : List Claimer) (terms : ClaimTerms) (now : Int) :
    Handed claimers terms (runClaimCohort q ix head claimers terms now) := by
  apply claimLoop_induct_demand (P := Handed claimers terms)
  · exact fun st rr h => { h with }
  · intro st q' rr h hnext
    obtain ⟨_, _, rfl⟩ := nextClaimable_eq hnext
    exact { h with }
  · intro st q' rr seq h hnext _
    obtain ⟨_, _, rfl⟩ := nextClaimable_eq hnext
    exact { h with }
  · exact fun st q' rr seq h hnext _ hrr => h.lease hnext hrr
  · refine ⟨nofun, nodup_nil, fun i => ?_, length_map _⟩
    simp only [filter_nil, length_nil, Nat.zero_add]
    rfl

end ClaimPass

/-- Two requests that the clamp does not tell apart. -/
def clampLease (leaseMs : Option Nat) : Option Nat :=
  leaseMs.map fun n => max minLeaseMs (min n maxLeaseMs)

theorem leaseDeadline_congr {leaseMs leaseMs' : Option Nat}
    (h : clampLease leaseMs = clampLease leaseMs') (now : Int) (topicLeaseMs : Nat) :
    leaseDeadline now topicLeaseMs leaseMs = leaseDeadline now topicLeaseMs leaseMs' := by
  have heff : effectiveLease topicLeaseMs leaseMs = effectiveLease topicLeaseMs leaseMs' := by
    cases leaseMs with
    | none =>
      cases leaseMs' with
      | none => rfl
      | some n => cases h
    | some n =>
      cases leaseMs' with
      | none => cases h
      | some m => exact some.inj h
  rw [leaseDeadline, leaseDeadline, heff]

/-- **A claim is honoured**: the jobs are those the pass leased to the node, at most as many as were
asked for, and leased for as long as was asked for. -/
structure ServedPass.Honours (p : ServedPass) (r : ClaimRequest) (jobs : List LeasedJob) : Prop where
  own : ∀ seq, seq ∈ jobs.map LeasedJob.seq ↔ seq ∈ p.pass.leased.map (fun e => e.2.1) ∧
    (p.pass.q.leases[seq]?).map Lease.node = some r.node
  once : (jobs.map LeasedJob.seq).Nodup
  atMost : jobs.length ≤ r.max
  deadline : ∀ j ∈ jobs, j.deadline = leaseDeadline p.now p.topicLeaseMs r.leaseMs ∧
    (p.pass.q.leases[j.seq]?).map Lease.deadlineMs = some j.deadline

namespace PassEnv

variable (env : PassEnv)

@[simp] theorem seq_job (deadline : Int) (e : Nat × Nat × Nat × Nat) :
    (env.job deadline e).seq = e.2.1 := by
  unfold job
  split <;> rfl

@[simp] theorem deadline_job (deadline : Int) (e : Nat × Nat × Nat × Nat) :
    (env.job deadline e).deadline = deadline := by
  unfold job
  split <;> rfl

theorem getElem?_slices (leaseMs : Option Nat) (claimers : List Claimer) (pass : ClaimPass) {i : Nat}
    (hi : i < claimers.length) : (env.slices leaseMs claimers pass)[i]? =
      some ((pass.leased.filter fun e => e.1 = i).map
        (env.job (leaseDeadline env.now env.leaseMs leaseMs))) := by
  simp [slices, hi]

/-- **The slice of a claimer honours its claim**, if no other claimer of the cohort has its node and
the leader asked for the same lease. -/
theorem honours_slice (q : QueueProjection) {claimers : List Claimer} {leaseMs : Option Nat} {i : Nat}
    {r : ClaimRequest} (hnodes : (claimers.map Claimer.node).Nodup)
    (hi : claimers[i]? = some r.claimer) (hmax : 0 < r.max)
    (hlease : clampLease r.leaseMs = clampLease leaseMs) :
    (env.serve q claimers leaseMs).Honours r
      (((env.serve q claimers leaseMs).results[i]?).getD []) := by
  have hlt : i < claimers.length := (List.getElem?_eq_some_iff.mp hi).1
  have hhanded := ClaimPass.handed_runClaimCohort q env.index env.head claimers
    ⟨env.maxDeliveries, env.deadLetter, leaseDeadline env.now env.leaseMs leaseMs⟩ env.now
  have hslice : ((env.serve q claimers leaseMs).results[i]?).getD [] =
      ((env.run q claimers leaseMs).leased.filter fun e => e.1 = i).map
        (env.job (leaseDeadline env.now env.leaseMs leaseMs)) := by
    simp only [serve, env.getElem?_slices leaseMs claimers _ hlt, getD_some]
  rw [hslice]
  have hseqs : (((env.run q claimers leaseMs).leased.filter fun e => e.1 = i).map
      (env.job (leaseDeadline env.now env.leaseMs leaseMs))).map LeasedJob.seq =
      ((env.run q claimers leaseMs).leased.filter fun e => e.1 = i).map fun e => e.2.1 := by
    simp [List.map_map, comp_def]
  refine ⟨fun seq => ?_, ?_, ?_, fun j hj => ?_⟩
  · rw [hseqs]
    constructor
    · intro hseq
      obtain ⟨e, he, rfl⟩ := mem_map.mp hseq
      obtain ⟨he, hei⟩ := mem_filter.mp he
      obtain ⟨c, hc, hl⟩ := hhanded.leased e he
      have hei : e.1 = i := by simpa using hei
      rw [hei, hi] at hc
      cases hc
      exact ⟨mem_map_of_mem he, by simp only [serve, run, hl]; rfl⟩
    · rintro ⟨hseq, hnode⟩
      obtain ⟨e, he, rfl⟩ := mem_map.mp hseq
      obtain ⟨c, hc, hl⟩ := hhanded.leased e he
      simp only [serve, run, hl, map_some, some.injEq] at hnode
      -- the node tells the claimers apart
      have hsame : e.1 = i := by
        have hlt' : e.1 < claimers.length := (List.getElem?_eq_some_iff.mp hc).1
        have hget : (claimers.map Claimer.node)[e.1]? = (claimers.map Claimer.node)[i]? := by
          rw [getElem?_map, getElem?_map, hc, hi]
          simp [hnode, ClaimRequest.claimer]
        exact (getElem?_inj (by simpa using hlt') hnodes).mp hget
      exact mem_map.mpr ⟨e, mem_filter.mpr ⟨he, by simpa using hsame⟩, rfl⟩
  · rw [hseqs]
    exact hhanded.once.sublist (filter_sublist.map _)
  · have hdemand := hhanded.demand i
    have hdi : (claimers.map ClaimPass.demand).getD i 0 = ClaimPass.demand r.claimer := by
      simp [getD_eq_getElem?_getD, hi]
    rw [hdi] at hdemand
    have hclaimer : r.claimer.max ≤ r.max := Nat.max_le.mpr ⟨hmax, min_le_left _ _⟩
    have hle : ClaimPass.demand r.claimer ≤ r.max :=
      Nat.max_le.mpr ⟨hmax, (min_le_left _ _).trans hclaimer⟩
    rw [length_map]
    exact (Nat.le_of_add_right_le hdemand.le).trans hle
  · obtain ⟨e, he, rfl⟩ := mem_map.mp hj
    obtain ⟨he, -⟩ := mem_filter.mp he
    obtain ⟨c, hc, hl⟩ := hhanded.leased e he
    rw [seq_job, deadline_job]
    refine ⟨leaseDeadline_congr hlease.symm env.now env.leaseMs, ?_⟩
    simp only [serve, run, hl]
    rfl

end PassEnv

/-! ## Runs that honour their claims -/

namespace ClaimInstr

def call? : ClaimInstr → Option Coalesced
  | .enter _ => none
  | .greedy c | .direct c _ | .lookup c | .join c _ | .forget c _ | .window c _ | .drain c _
  | .remove c _ _ | .spawn c _ | .running c _ _ | .send c _ _ | .recv c | .ready c _ => some c

def joins? : ClaimInstr → Option (Coalesced × Nat)
  | .join c h => some (c, h)
  | _ => none

/-- Whether a step reads the topic's state for the response. -/
def states : ClaimInstr → Bool
  | .ready .. => true
  | _ => false

end ClaimInstr

def CoordInstr.reply? (i : CoordInstr) : Option Nat :=
  (i.claim?.bind ClaimInstr.call?).map Coalesced.reply

def Wake.fails : Wake → Bool
  | .fail => true
  | _ => false

namespace Coordinator

variable {s s' : Coordinator} {t t' : Nat}

/-- Nothing is dropped; a claim asks for a job; a claim joins a cohort whose members come from other
nodes and ask for the same lease; and the state read behind a reply succeeds. -/
def Honourable (s : Coordinator) (_ : Nat) (x : Wake) (i : CoordInstr) : Prop :=
  x.cancels = false ∧ (∀ r ∈ i.request?, 0 < r.max) ∧
    ∀ j ∈ i.claim?, (j.states = true → x.fails = false) ∧
      ∀ e ∈ j.joins?, ∀ p ∈ (s.cohorts e.2).claimers,
        (s.asked p.reply).node ≠ (s.asked e.1.reply).node ∧
          clampLease (s.asked p.reply).leaseMs = clampLease (s.asked e.1.reply).leaseMs

instance (s : Coordinator) (t : Nat) (x : Wake) (i : CoordInstr) : Decidable (Honourable s t x i) := by
  unfold Honourable
  infer_instance

variable {x : Wake} {i : CoordInstr} {ids : List Nat} {leaseMs : Option Nat} {id k : Nat}
  {result : Option (List LeasedJob)} {c : Coalesced} {task : PoolTask} {outcome : Option ServedPass}
  {o : Outcome Coordinator CoordInstr}

theorem Honourable.leadersStay (h : Honourable s t x i) :
    LeadersStay s t x i :=
  fun _ => h.1

/-- Claims that one pass with this lease can serve. -/
structure Agree (s : Coordinator) (ids : List Nat) (leaseMs : Option Nat) : Prop where
  issued : ∀ id ∈ ids, id < s.nextReply
  nodes : (ids.map fun id => (s.asked id).node).Nodup
  lease : ∀ id ∈ ids, clampLease (s.asked id).leaseMs = clampLease leaseMs
  max : ∀ id ∈ ids, 0 < (s.asked id).max

/-- What claim `id` may be given after a pass with this outcome. -/
def Owes (members : List Nat) (id : Nat) (result : Option (List LeasedJob)) :
    Option ServedPass → Prop
  | some p => result = some ((p.results[members.idxOf id]?).getD [])
  | none => result = some [] ∨ result = none

/-- What a caller may be given once its pass has run. -/
def Due (s : Coordinator) (id : Nat) (result : Option (List LeasedJob)) : Prop :=
  id < s.nextReply ∧ ∃ k task outcome, s.place id = .passed k ∧ s.tasks k = some task ∧
    task.outcome = some outcome ∧ Owes task.members id result outcome

theorem Keeps.agree (h : Keeps t s s') (ha : s.Agree ids leaseMs) : s'.Agree ids leaseMs := by
  have hasked : ∀ id ∈ ids, s'.asked id = s.asked id := fun id hid => h.asked id (ha.issued id hid)
  refine ⟨fun id hid => (ha.issued id hid).trans_le h.nextReply, ?_, fun id hid => ?_,
    fun id hid => ?_⟩
  · rw [map_congr_left fun id hid => by rw [hasked id hid]]
    exact ha.nodes
  · rw [hasked id hid]
    exact ha.lease id hid
  · rw [hasked id hid]
    exact ha.max id hid

theorem Keeps.due (h : Keeps t s s') (hd : s.Due id result) : s'.Due id result := by
  obtain ⟨hid, k, task, outcome, hplace, htask, hout, hresult⟩ := hd
  obtain ⟨task', htask', -, -, hsame⟩ := h.tasks k task htask
  have hsame := hsame (by simp [hout])
  subst hsame
  exact ⟨hid.trans_le h.nextReply, k, task', outcome, h.passed id k hid hplace, htask', hout,
    hresult⟩

/-- The claims of a cohort and of a pass agree, and nobody is given anything but its slice. -/
structure Agreed (s : Coordinator) : Prop where
  cohorts : ∀ h, ∀ p ∈ (s.cohorts h).claimers,
    s.Agree ((s.cohorts h).claimers.map reply) (s.asked p.reply).leaseMs
  tasks : ∀ k task, s.tasks k = some task → s.Agree task.members task.leaseMs
  served : ∀ k task p, s.tasks k = some task → task.outcome = some (some p) →
    ∃ env : PassEnv, ∃ q, p = env.serve q task.claimers task.leaseMs
  replies : ∀ id jobs, s.replies id = .sent jobs → s.Due id (some jobs)
  kept : ∀ id, s.replies id ≠ .dropped
  returned : ∀ e ∈ s.returned, s.Due e.1 e.2

/-- What a thread carries in the middle of a claim. -/
def Faithful (s : Coordinator) : ClaimInstr → Prop
  | .greedy c | .lookup c | .join c _ | .forget c _ => 0 < (s.asked c.reply).max
  | .window c h | .drain c h => c.reply ∈ (s.cohorts h).claimers.map reply
  | .remove c _ drained | .spawn c drained =>
    c.reply ∈ drained.map reply ∧
      s.Agree (drained.map reply) c.leaseMs
  | .running c _ drained => c.reply ∈ drained.map reply
  | .send c todo failed =>
    (∀ e ∈ todo, s.Due e.1 (some e.2)) ∧ (failed = true → s.Due c.reply none)
  | .ready c jobs => s.Due c.reply (some jobs)
  | .enter _ | .direct _ _ | .recv _ => True

/-- A claim of thread `t` has returned, or is what the thread is at. -/
def Attended (s : Coordinator) (t : Nat) (code : List CoordInstr) : Prop :=
  ∀ id < s.nextReply, s.caller id = t →
    (∃ result, (id, result) ∈ s.returned) ∨ ∃ i ∈ code, i.reply? = some id

structure FaithfulCode (s : Coordinator) (t : Nat) (code : List CoordInstr) : Prop where
  faithful : ∀ i ∈ code, ∀ j ∈ i.claim?, s.Faithful j
  attended : s.Attended t code

/-! ### What the steps do to the slices -/

theorem Agreed.keep (h : s.Agreed) (hk : Keeps t s s') (hcohorts : s'.cohorts = s.cohorts)
    (htasks : s'.tasks = s.tasks) (hreplies : s'.replies = s.replies)
    (hreturned : s'.returned = s.returned) : s'.Agreed := by
  refine ⟨fun j p hp => ?_, fun k task htask => ?_, fun k task p htask hout => ?_,
    fun id jobs hid => ?_, fun id => ?_, fun e he => ?_⟩
  · rw [hcohorts] at hp ⊢
    have ha := h.cohorts j p hp
    rw [hk.asked _ (ha.issued _ (mem_map_of_mem hp))]
    exact hk.agree ha
  · rw [htasks] at htask
    exact hk.agree (h.tasks k task htask)
  · rw [htasks] at htask
    exact h.served k task p htask hout
  · rw [hreplies] at hid
    exact hk.due (h.replies id jobs hid)
  · rw [hreplies]
    exact h.kept id
  · rw [hreturned] at he
    exact hk.due (h.returned e he)

theorem agree_singleton (hc : s.Issued t c) (hmax : 0 < (s.asked c.reply).max) :
    s.Agree [c.reply] c.leaseMs := by
  refine ⟨fun id hid => ?_, by simp, fun id hid => ?_, fun id hid => ?_⟩
  · rw [mem_singleton.mp hid]
    exact hc.lt
  · rw [mem_singleton.mp hid, hc.leaseMs]
  · rw [mem_singleton.mp hid]
    exact hmax

theorem Agree.concat (ha : s.Agree ids leaseMs) (hid : id < s.nextReply)
    (hmax : 0 < (s.asked id).max) (hlease : clampLease (s.asked id).leaseMs = clampLease leaseMs)
    (hnode : ∀ id' ∈ ids, (s.asked id').node ≠ (s.asked id).node) :
    s.Agree (ids ++ [id]) leaseMs := by
  refine ⟨?_, ?_, ?_, ?_⟩
  · intro id' hid'
    rcases mem_append.mp hid' with hid' | hid'
    · exact ha.issued id' hid'
    · rw [mem_singleton.mp hid']
      exact hid
  · rw [map_append]
    refine nodup_append.mpr ⟨ha.nodes, nodup_singleton _, ?_⟩
    intro a ha' b hb hab
    obtain ⟨id', hid', rfl⟩ := mem_map.mp ha'
    exact hnode id' hid' (hab.trans (mem_singleton.mp hb))
  · intro id' hid'
    rcases mem_append.mp hid' with hid' | hid'
    · exact ha.lease id' hid'
    · rw [mem_singleton.mp hid']
      exact hlease
  · intro id' hid'
    rcases mem_append.mp hid' with hid' | hid'
    · exact ha.max id' hid'
    · rw [mem_singleton.mp hid']
      exact hmax

theorem Agree.of_lease {leaseMs leaseMs' : Option Nat} (ha : s.Agree ids leaseMs)
    (h : clampLease leaseMs = clampLease leaseMs') : s.Agree ids leaseMs' :=
  { ha with lease := fun id hid => (ha.lease id hid).trans h }

theorem Agreed.gather (h : s.Agreed) (hc : s.Issued t c) (hplace : s.place c.reply = .calling)
    (hmax : 0 < (s.asked c.reply).max)
    (hagree : ∀ p ∈ (s.cohorts k).claimers, (s.asked p.reply).node ≠ (s.asked c.reply).node ∧
      clampLease (s.asked p.reply).leaseMs = clampLease (s.asked c.reply).leaseMs) :
    (s.gather t k ⟨c.claimer, c.reply⟩).Agreed := by
  have hk : Keeps t s (s.gather t k ⟨c.claimer, c.reply⟩) := keeps_gather hc hplace k
  refine ⟨fun j p hp => ?_, fun j task htask => hk.agree (h.tasks j task htask), h.served,
    fun id jobs hid => hk.due (h.replies id jobs hid), h.kept, fun e he => hk.due (h.returned e he)⟩
  by_cases hj : j = k
  · subst hj
    simp only [gather, update_self] at hp ⊢
    rw [map_append, map_cons, map_nil]
    apply hk.agree
    -- all members of the cohort, the new one included, ask for one lease
    rcases mem_append.mp hp with hp | hp
    · refine (h.cohorts j p hp).concat hc.lt hmax (hagree p hp).2.symm fun id' hid' => ?_
      obtain ⟨p', hp', rfl⟩ := mem_map.mp hid'
      exact (hagree p' hp').1
    · rw [mem_singleton.mp hp]
      cases hcl : (s.cohorts j).claimers with
      | nil => exact (agree_singleton hc hmax).of_lease (by rw [hc.leaseMs])
      | cons p₀ rest =>
        rw [← hcl]
        have hp₀ : p₀ ∈ (s.cohorts j).claimers := by
          rw [hcl]
          exact mem_cons_self
        refine Agree.of_lease ?_ (hagree p₀ hp₀).2
        refine (h.cohorts j p₀ hp₀).concat hc.lt hmax (hagree p₀ hp₀).2.symm fun id' hid' => ?_
        obtain ⟨p', hp', rfl⟩ := mem_map.mp hid'
        exact (hagree p' hp').1
  · rw [cohorts_gather_of_ne hj] at hp ⊢
    exact hk.agree (h.cohorts j p hp)

theorem Agreed.close (h : s.Agreed) (hs : s.Seats) (t k : Nat) : (s.close t k).Agreed := by
  have hk := hs.keeps_close t k
  refine ⟨fun j p hp => ?_, fun j task htask => hk.agree (h.tasks j task htask), h.served,
    fun id jobs hid => hk.due (h.replies id jobs hid), h.kept, fun e he => hk.due (h.returned e he)⟩
  by_cases hj : j = k
  · subst hj
    simp [Coordinator.close] at hp
  · rw [cohorts_close_of_ne hj] at hp ⊢
    exact hk.agree (h.cohorts j p hp)

theorem Agreed.submit (h : s.Agreed) {claimers : List Claimer} {members : List Nat}
    (hk : Keeps t s (s.submit claimers leaseMs members)) (ha : s.Agree members leaseMs) :
    (s.submit claimers leaseMs members).Agreed := by
  refine ⟨fun j p hp => hk.agree (h.cohorts j p hp), fun j task htask => ?_,
    fun j task p htask hout => ?_, fun id jobs hid => hk.due (h.replies id jobs hid), h.kept,
    fun e he => hk.due (h.returned e he)⟩
  · by_cases hj : j = s.nextTask
    · subst hj
      simp only [Coordinator.submit, update_self, some.injEq] at htask
      subst htask
      exact hk.agree ha
    · simp only [Coordinator.submit, update_of_ne hj] at htask
      exact hk.agree (h.tasks j task htask)
  · by_cases hj : j = s.nextTask
    · subst hj
      simp only [Coordinator.submit, update_self, some.injEq] at htask
      subst htask
      cases hout
    · simp only [Coordinator.submit, update_of_ne hj] at htask
      exact h.served j task p htask hout

theorem Agreed.finish (h : s.Agreed) (htask : s.tasks k = some task) (htodo : task.outcome = none)
    (q : QueueProjection) (hserved : ∀ p, outcome = some p →
      ∃ env : PassEnv, ∃ q, p = env.serve q task.claimers task.leaseMs) :
    (s.finish k task q outcome).Agreed := by
  have hk := keeps_finish 0 htask htodo q outcome
  refine ⟨fun j p hp => hk.agree (h.cohorts j p hp), fun j task' htask' => ?_,
    fun j task' p htask' hout => ?_, fun id jobs hid => hk.due (h.replies id jobs hid), h.kept,
    fun e he => hk.due (h.returned e he)⟩
  · by_cases hj : j = k
    · subst hj
      simp only [finish, update_self, some.injEq] at htask'
      subst htask'
      exact hk.agree (h.tasks j task htask)
    · simp only [Coordinator.finish, update_of_ne hj] at htask'
      exact hk.agree (h.tasks j task' htask')
  · by_cases hj : j = k
    · subst hj
      simp only [finish, update_self, some.injEq] at htask'
      subst htask'
      exact hserved p (some.inj hout)
    · simp only [Coordinator.finish, update_of_ne hj] at htask'
      exact h.served j task' p htask' hout

theorem Agreed.answer (h : s.Agreed) {reply : Nat} {jobs : List LeasedJob}
    (hdue : s.Due reply (some jobs)) : (s.answer reply jobs).Agreed := by
  have hsame : SameSeats s (s.answer reply jobs) := ⟨rfl, rfl, rfl, rfl, rfl, rfl, rfl, rfl, rfl⟩
  have hk := hsame.keeps 0
  refine ⟨fun j p hp => hk.agree (h.cohorts j p hp), fun j task htask => hk.agree (h.tasks j task htask),
    h.served, fun id jobs' hid => ?_, fun id => ?_, fun e he => hk.due (h.returned e he)⟩
  · by_cases hr : id = reply
    · subst hr
      simp only [Coordinator.answer, update_self, Reply.sent.injEq] at hid
      subst hid
      exact hk.due hdue
    · simp only [Coordinator.answer, update_of_ne hr] at hid
      exact hk.due (h.replies id jobs' hid)
  · by_cases hr : id = reply
    · subst hr
      simp [Coordinator.answer]
    · simp only [Coordinator.answer, update_of_ne hr]
      exact h.kept id

theorem Agreed.giveBack (h : s.Agreed) (hdue : s.Due id result) :
    (s.giveBack id result).Agreed := by
  have hk := (sameSeats_giveBack s id result).keeps 0
  refine ⟨fun j p hp => hk.agree (h.cohorts j p hp), fun j task htask => hk.agree (h.tasks j task htask),
    h.served, fun id jobs' hid => hk.due (h.replies id jobs' hid), h.kept, fun e he => ?_⟩
  rcases mem_append.mp he with he | he
  · exact hk.due (h.returned e he)
  · rw [mem_singleton.mp he]
    exact hk.due hdue

theorem due_of_member (hs : s.Seats) (htask : s.tasks k = some task)
    (hout : task.outcome = some outcome) (hid : id ∈ task.members)
    (hresult : Owes task.members id result outcome) : s.Due id result := by
  obtain ⟨hlt, hplace⟩ := (hs.passed k task htask).2.2 id hid
  exact ⟨hlt, k, task, outcome, hplace, htask, hout, hresult⟩

theorem due_of_fanOut (hs : s.Seats) {drained : List PendingClaimer}
    {results : List (List LeasedJob)} (htask : s.tasks k = some task)
    (hmembers : task.members = drained.map reply)
    (hout : task.outcome = some none ∧ results = [] ∨
      ∃ p, task.outcome = some (some p) ∧ p.results = results) :
    ∀ e ∈ fanOut drained results, s.Due e.1 (some e.2) := by
  intro e he
  obtain ⟨⟨p, i⟩, hp, rfl⟩ := mem_map.mp he
  have hi : drained[i]? = some p := mk_mem_zipIdx_iff_getElem?.mp hp
  have hmem : p.reply ∈ task.members := by
    rw [hmembers]
    exact mem_map_of_mem (mem_of_getElem? hi)
  rcases hout with ⟨hout, rfl⟩ | ⟨served, hout, rfl⟩
  · exact due_of_member hs htask hout hmem (.inl (by simp))
  · refine due_of_member hs htask hout hmem ?_
    -- the channels of a pass are different ones, so the position gives the slice
    have hidx : task.members.idxOf p.reply = i := by
      obtain ⟨hlt, hget⟩ := List.getElem?_eq_some_iff.mp hi
      have hnodup := (hs.passed k task htask).2.1
      have hlt' : i < task.members.length := by
        rw [hmembers, length_map]
        exact hlt
      have hget' : task.members[i] = p.reply := by
        simp only [hmembers, getElem_map, hget]
      rw [← hget']
      exact List.Nodup.idxOf_getElem hnodup i hlt'
    simp only [Owes, hidx]

/-! ### One step -/

theorem replies_unform (s : Coordinator) (k : Nat) :
    (s.unform k).cohorts = s.cohorts ∧ (s.unform k).tasks = s.tasks ∧
      (s.unform k).replies = s.replies ∧ (s.unform k).returned = s.returned ∧
        (s.unform k).asked = s.asked := by
  unfold unform
  split <;> exact ⟨rfl, rfl, rfl, rfl, rfl⟩

/-- **One step of a claim**: what it takes along is its own. -/
theorem agreed_of_claimSteps {i : ClaimInstr} {o : ClaimStep} {owner : ClaimOwner}
    (hsteps : ClaimInstr.Steps s t x i o) (hs : s.Seats) (hseated : s.Seated t i) (h : s.Agreed)
    (hi : s.Faithful i) (hR : Honourable s t x (.claim owner i)) :
    o.shared.Agreed ∧ ∀ j ∈ o.next?, o.shared.Faithful j := by
  obtain ⟨-, hk, -⟩ := seats_of_claimSteps hsteps hs hseated
  obtain ⟨hcancel, hmax, hjoin⟩ := hR
  obtain ⟨hstate, hjoins⟩ := hjoin i rfl
  cases hsteps with
  | missing r | invalid j r => exact ⟨h, fun _ hj => by cases hj⟩
  | alone r | call j r =>
    refine ⟨h.keep hk rfl rfl rfl rfl, fun _ hj => ?_⟩
    cases hj
    simp only [Faithful, shared, ticket, update_self]
    exact hmax r rfl
  | submit c =>
    refine ⟨h.submit hk (agree_singleton hseated.1 hi), fun _ hj => ?_⟩
    cases hj
    trivial
  | @collect c k task outcome htask hdone =>
    obtain ⟨task', htask', hmembers, -⟩ := hseated.2
    rw [htask] at htask'
    cases htask'
    have hmem : c.reply ∈ task.members := by
      rw [hmembers]
      exact mem_singleton_self _
    refine ⟨h.giveBack (due_of_member hs htask hdone hmem ?_), fun _ hj => by cases hj⟩
    cases outcome with
    | none => exact .inr rfl
    | some p =>
      -- a pass for one claimer has one slice
      obtain ⟨env, q, rfl⟩ := h.served k task p htask hdone
      have hclaimers := (hs.passed k task htask).1
      have hlen : task.claimers.length = 1 := by
        rw [hclaimers, hmembers]
        rfl
      simp [Owes, hmembers, PassEnv.serve, PassEnv.slices, hlen]
  | dropDirect | dropWindow | dropRunning | dropRecv => cases hcancel
  | find | late | wake =>
    refine ⟨h, fun _ hj => ?_⟩
    cases hj
    exact hi
  | insert c hforming =>
    refine ⟨h.keep hk rfl rfl rfl rfl, fun _ hj => ?_⟩
    cases hj
    exact hi
  | lead c k hopen hempty =>
    refine ⟨h.gather hseated.1 hseated.2.1 hi (hjoins (c, k) rfl), fun _ hj => ?_⟩
    cases hj
    simp [Faithful, shared, gather]
  | follow c k hopen hsome =>
    refine ⟨h.gather hseated.1 hseated.2.1 hi (hjoins (c, k) rfl), fun _ hj => ?_⟩
    cases hj
    trivial
  | retry c k =>
    obtain ⟨hcohorts, htasks, hreplies, hreturned, hasked⟩ := replies_unform s k
    refine ⟨h.keep hk hcohorts htasks hreplies hreturned, fun _ hj => ?_⟩
    cases hj
    simp only [Faithful, shared, hasked]
    exact hi
  | drain c k =>
    refine ⟨h.close hs t k, fun _ hj => ?_⟩
    cases hj
    obtain ⟨p, hp, hpc⟩ := mem_map.mp hi
    refine ⟨hi, hk.agree ?_⟩
    rw [hseated.1.leaseMs, ← hpc]
    exact h.cohorts k p hp
  | remove c k drained =>
    obtain ⟨hcohorts, htasks, hreplies, hreturned, -⟩ := replies_unform s k
    refine ⟨h.keep hk hcohorts htasks hreplies hreturned, fun _ hj => ?_⟩
    cases hj
    exact ⟨hi.1, hk.agree hi.2⟩
  | spawn c drained =>
    refine ⟨h.submit hk hi.2, fun _ hj => ?_⟩
    cases hj
    exact hi.1
  | served c k drained htask hdone =>
    obtain ⟨task', htask', hmembers, -⟩ := hseated.2
    rw [htask] at htask'
    cases htask'
    refine ⟨h, fun _ hj => ?_⟩
    cases hj
    exact ⟨due_of_fanOut hs htask hmembers (.inr ⟨_, hdone, rfl⟩), fun hcontra => by cases hcontra⟩
  | refused c k drained htask hdone =>
    obtain ⟨task', htask', hmembers, -⟩ := hseated.2
    rw [htask] at htask'
    cases htask'
    refine ⟨h, fun _ hj => ?_⟩
    cases hj
    refine ⟨due_of_fanOut hs htask hmembers (.inl ⟨hdone, rfl⟩), fun _ => ?_⟩
    refine due_of_member hs htask hdone ?_ (.inr rfl)
    rw [hmembers]
    exact hi
  | error c => exact ⟨h.giveBack (hi.2 rfl), fun _ hj => by cases hj⟩
  | sent c =>
    refine ⟨h, fun _ hj => ?_⟩
    cases hj
    trivial
  | answer c reply jobs todo failed =>
    refine ⟨h.answer (hi.1 (reply, jobs) mem_cons_self), fun _ hj => ?_⟩
    cases hj
    refine ⟨fun e he => hk.due (hi.1 e (mem_cons_of_mem _ he)), fun hf => hk.due (hi.2 hf)⟩
  | receive c hreply =>
    refine ⟨h, fun _ hj => ?_⟩
    cases hj
    exact h.replies _ _ hreply
  | lost c hreply => exact absurd hreply (h.kept c.reply)
  | finish c jobs now =>
    have hsame : SameSeats s (s.setQ (s.q.sweepExpired now)) :=
      ⟨rfl, rfl, rfl, rfl, rfl, rfl, rfl, rfl, rfl⟩
    have hk' := hsame.keeps t
    refine ⟨(h.keep hk' rfl rfl rfl rfl).giveBack (hk'.due hi), fun _ hj => by cases hj⟩
  | unstated c jobs => cases hstate rfl

theorem attended_of_claimSteps {i : ClaimInstr} {o : ClaimStep}
    (hsteps : ClaimInstr.Steps s t x i o) (hcancel : x.cancels = false)
    (hat : ∀ id < s.nextReply, s.caller id = t →
      (∃ result, (id, result) ∈ s.returned) ∨ i.call?.map Coalesced.reply = some id) :
    ∀ id < o.shared.nextReply, o.shared.caller id = t →
      (∃ result, (id, result) ∈ o.shared.returned) ∨
        (o.next?.bind ClaimInstr.call?).map Coalesced.reply = some id := by
  have hreturn : ∀ {c : Coalesced} (result : Option (List LeasedJob)),
      i.call? = some c → ∀ id < s.nextReply, s.caller id = t →
        ∃ result', (id, result') ∈ (s.giveBack c.reply result).returned := by
    intro c result hc id hid hcaller
    rcases hat id hid hcaller with ⟨result', hmem⟩ | hmine
    · exact ⟨result', mem_append_left _ hmem⟩
    · rw [hc] at hmine
      cases hmine
      exact ⟨result, mem_append_right _ (mem_singleton_self _)⟩
  have hunform : ∀ k, (s.unform k).nextReply = s.nextReply ∧ (s.unform k).caller = s.caller ∧
      (s.unform k).returned = s.returned := by
    intro k
    unfold unform
    split <;> exact ⟨rfl, rfl, rfl⟩
  cases hsteps with
  | alone r | call j r =>
    intro id hid hcaller
    rcases Nat.lt_or_eq_of_le (Nat.le_of_lt_succ hid) with hlt | rfl
    · have hold : s.caller id = t := by
        rw [← hcaller]
        exact (update_of_ne hlt.ne _ _).symm
      rcases hat id hlt hold with hmem | hmine
      · exact .inl hmem
      · cases hmine
    · exact .inr rfl
  | collect | error | unstated => exact fun id hid hcaller => .inl (hreturn _ rfl id hid hcaller)
  | finish c jobs now => exact fun id hid hcaller => .inl (hreturn (some jobs) rfl id hid hcaller)
  | dropDirect | dropWindow | dropRunning | dropRecv => cases hcancel
  | retry c k | remove c k drained =>
    obtain ⟨hnext, hcaller, hreturned⟩ := hunform k
    simp only [shared, hnext, hcaller, hreturned]
    exact hat
  | _ => exact hat

theorem returned_of_steps (hsteps : Steps s t x i o) : (∀ e ∈ s.returned, e ∈ o.shared.returned) ∧
      ∀ id < o.shared.nextReply, id < s.nextReply ∨ o.shared.caller id = t := by
  have hunform : ∀ k, (s.unform k).nextReply = s.nextReply ∧ (s.unform k).returned = s.returned := by
    intro k
    unfold unform
    split <;> exact ⟨rfl, rfl⟩
  cases hsteps with
  | claim owner hclaim =>
    rw [owner.shared_resume]
    cases hclaim with
    | alone r | call j r =>
      refine ⟨fun _ he => he, fun id hid => ?_⟩
      rcases Nat.lt_or_eq_of_le (Nat.le_of_lt_succ hid) with hlt | rfl
      · exact .inl hlt
      · exact .inr (update_self ..)
    | retry c k | remove c k drained =>
      obtain ⟨hnext, hreturned⟩ := hunform k
      rw [shared, hnext, hreturned]
      exact ⟨fun _ he => he, fun _ hid => .inl hid⟩
    | collect | error | finish | unstated =>
      exact ⟨fun _ he => mem_append_left _ he, fun _ hid => .inl hid⟩
    | _ => exact ⟨fun _ he => he, fun _ hid => .inl hid⟩
  | _ => exact ⟨fun _ he => he, fun _ hid => .inl hid⟩

theorem FaithfulCode.other {code : List CoordInstr} (hf : s.FaithfulCode t' code)
    (hsteps : Steps s t x i o) (hk : Keeps t s o.shared) (hi : s.LeadCode t [i]) (ht : t' ≠ t)
    (hseated : s.SeatedCode t' code) (hlead : s.LeadCode t' code) :
    o.shared.FaithfulCode t' code := by
  obtain ⟨hreturned, hnew⟩ := returned_of_steps hsteps
  refine ⟨fun i' hi' j hj => ?_, fun id hid hcaller => ?_⟩
  · have hj' := hf.faithful i' hi' j hj
    have hsj := hseated.2 i' hi' j hj
    have hcohort : ∀ h c, j.leads? = some h →
        c ∈ (s.cohorts h).claimers.map reply →
        c ∈ (o.shared.cohorts h).claimers.map reply := by
      intro h c hjh hc
      obtain ⟨p, hp, rfl⟩ := mem_map.mp hc
      have hleader := hlead.leader i' hi' h (bind_eq_some_iff.mpr ⟨j, hj, hjh⟩)
      exact mem_map_of_mem (claimers_of_steps hsteps hi hleader ht p hp)
    cases j with
    | greedy c | lookup c | join c k | forget c k =>
      simp only [Faithful]
      rw [hk.asked _ hsj.1.lt]
      exact hj'
    | window c k | drain c k => exact hcohort k c.reply rfl hj'
    | remove c k drained | spawn c drained => exact ⟨hj'.1, hk.agree hj'.2⟩
    | running c k drained => exact hj'
    | send c todo failed =>
      exact ⟨fun e he => hk.due (hj'.1 e he), fun hfailed => hk.due (hj'.2 hfailed)⟩
    | ready c jobs => exact hk.due hj'
    | enter | direct | recv => trivial
  · rcases hnew id hid with hlt | hmine
    · rw [hk.caller id hlt] at hcaller
      rcases hf.attended id hlt hcaller with ⟨result, hmem⟩ | hat
      · exact .inl ⟨result, hreturned _ hmem⟩
      · exact .inr hat
    · exact absurd (hcaller.symm.trans hmine) ht

/-- **One step** of a run that honours its claims. -/
theorem faithful_of_steps (hsteps : Steps s t x i o) (hs : s.Seats)
    (hseated : ∀ j ∈ i.claim?, s.Seated t j) (hk : Keeps t s o.shared) (h : s.Agreed)
    (hi : s.FaithfulCode t [i]) (hR : Honourable s t x i) :
    o.shared.Agreed ∧ o.shared.FaithfulCode t (o.code []) := by
  have hown : ∀ j ∈ i.claim?, s.Faithful j := hi.faithful i (mem_singleton_self i)
  have hat : ∀ id < s.nextReply, s.caller id = t →
      (∃ result, (id, result) ∈ s.returned) ∨ i.reply? = some id := by
    intro id hid hcaller
    rcases hi.attended id hid hcaller with hmem | ⟨i', hi', hreply⟩
    · exact .inl hmem
    · rw [mem_singleton.mp hi'] at hreply
      exact .inr hreply
  -- a step outside the claims: the thread has no claim in progress
  have houtside : i.claim? = none → o.shared.nextReply = s.nextReply →
      o.shared.caller = s.caller → (∀ e ∈ s.returned, e ∈ o.shared.returned) →
      o.shared.Attended t (o.code []) := by
    intro hnone hnext hcaller hreturned id hid hc
    rw [hnext] at hid
    rw [hcaller] at hc
    rcases hat id hid hc with ⟨result, hmem⟩ | hreply
    · exact .inl ⟨result, hreturned _ hmem⟩
    · simp [CoordInstr.reply?, hnone] at hreply
  cases hsteps with
  | claim owner hclaim =>
    rename_i j o'
    rw [owner.shared_resume] at hk ⊢
    obtain ⟨hagreed, hnext⟩ := agreed_of_claimSteps hclaim hs (hseated j rfl) h (hown j rfl) hR
    have hattended := attended_of_claimSteps hclaim hR.1 hat
    refine ⟨hagreed, fun i' hi' j' hj' => ?_, fun id hid hcaller => ?_⟩
    · rcases ClaimOwner.mem_code_resume hi' with ⟨j'', hj'', rfl⟩ | hnone
      · cases hj'
        exact hnext _ hj''
      · rw [hnone] at hj'
        cases hj'
    · rcases hattended id hid hcaller with hmem | hreply
      · exact .inl hmem
      · rcases owner.code_resume o' with ⟨j', hj', hc⟩ | ⟨hnone, -⟩
        · rw [hj'] at hreply
          rw [hc]
          exact .inr ⟨_, mem_singleton_self _, hreply⟩
        · rw [hnone] at hreply
          cases hreply
  | openConn node max leaseMs =>
    refine ⟨h.keep hk rfl rfl rfl rfl, fun i' hi' j' hj' => ?_, houtside rfl rfl rfl fun _ he => he⟩
    rw [mem_singleton.mp hi'] at hj'
    cases hj'
  | stream w hi' hj =>
    have hnone : i.claim? = none := by
      rcases hi' with rfl | rfl | rfl | ⟨jobs, rfl⟩
      all_goals rfl
    refine ⟨h, fun i' hi' j' hj' => ?_, houtside hnone rfl rfl fun _ he => he⟩
    rw [mem_singleton.mp hi'] at hj'
    rcases hj with rfl | rfl | ⟨jobs, rfl⟩ | rfl | ⟨max, rfl⟩
    · cases hj'
    · cases hj'
    · cases hj'
    · cases hj'
    · cases hj'
      trivial
  | release conn =>
    exact ⟨h.keep hk rfl rfl rfl rfl, nofun,
      houtside rfl rfl rfl fun _ he => he⟩
  | execute k hx htask htodo =>
    refine ⟨h.finish htask htodo _ fun p hp => ?_, nofun,
      houtside rfl rfl rfl fun _ he => he⟩
    cases hp
    exact ⟨_, _, rfl⟩
  | abort k htask htodo =>
    exact ⟨h.finish htask htodo _ nofun, nofun,
      houtside rfl rfl rfl fun _ he => he⟩
  | other q hi' _ =>
    have hnone : i.claim? = none := by
      cases i with
      | claim owner j => exact absurd rfl (hi' owner j)
      | _ => rfl
    exact ⟨h.keep hk rfl rfl rfl rfl, nofun,
      houtside hnone rfl rfl fun _ he => he⟩

/-! ## Every run -/

/-- The invariant of the runs that honour their claims. -/
structure FaithfulRun (s : Threads Coordinator CoordInstr) : Prop where
  led : LedRun s
  agreed : s.shared.Agreed
  code : ∀ t, s.shared.FaithfulCode t (s.code t)

theorem FaithfulRun.step {s s' : Threads Coordinator CoordInstr} {a : ThreadAction CoordCall Wake}
    (h : FaithfulRun s) (hR : Threads.OnInput (fun _ => True) Honourable s a)
    (hstep : Coordinator.step s a = some s') : FaithfulRun s' := by
  have hstay : Threads.OnInput (fun _ => True) LeadersStay s a := by
    cases a with
    | start t c => trivial
    | run t x => exact fun i hi => (hR i hi).leadersStay
  obtain ⟨t, c, rfl, hcode, rfl⟩ | ⟨t, x, i, o, rfl, hcode, hsteps, rfl⟩ := h.led.sound.steps hstep
  · refine ⟨h.led.step hstay hstep, h.agreed,
      (forall_update_iff s.code s.shared.FaithfulCode).mpr ⟨?_, fun t' _ => h.code t'⟩⟩
    have hown := h.code t
    rw [hcode] at hown
    refine ⟨fun i hi j hj => ?_, fun id hid hcaller => ?_⟩
    · cases c with
      | claim node max leaseMs =>
        rw [mem_singleton.mp hi] at hj
        cases hj
        trivial
      | _ =>
        rw [mem_singleton.mp hi] at hj
        cases hj
    · rcases hown.attended id hid hcaller with hmem | ⟨i, hi, -⟩
      · exact .inl hmem
      · cases hi
  · have hseated := (h.led.sound.code t).2 i (by rw [hcode]; exact mem_singleton_self i)
    obtain ⟨-, hk, -⟩ := seats_of_steps hsteps h.led.sound.shared hseated
    have hown := h.code t
    have hlead := h.led.led.code t
    rw [hcode] at hown hlead
    obtain ⟨hagreed, hown'⟩ := faithful_of_steps hsteps h.led.sound.shared hseated hk h.agreed hown
      (hR i (by rw [hcode]; rfl))
    exact ⟨h.led.step hstay hstep, hagreed, (forall_update_iff s.code o.shared.FaithfulCode).mpr
      ⟨hown', fun t' ht =>
        (h.code t').other hsteps hk hlead ht (h.led.sound.code t') (h.led.led.code t')⟩⟩

theorem faithfulRun_start (q : QueueProjection) : FaithfulRun (start q) := by
  refine ⟨ledRun_start q, ⟨?_, ?_, ?_, ?_, ?_, ?_⟩, fun t => ⟨fun i hi => ?_, fun id hid => ?_⟩⟩
  · intro h p hp
    cases hp
  · intro k task htask
    cases htask
  · intro k task p htask
    cases htask
  · intro id jobs hid
    cases hid
  · intro id hid
    cases hid
  · intro e he
    cases he
  · cases hi
  · cases hid

/-- **Coalesced claims are honoured.**  In every run that meets the condition, and for every pass that
has run: a member of it that has returned got the jobs the pass leased to its node, no more than it
asked for, until the instant it asked for; every job the pass leased has been delivered to a member, or
the call of that member is still on its way; and after a failed pass nobody got a job. -/
theorem claims_honoured {q : QueueProjection} {as : List (ThreadAction CoordCall Wake)}
    {s : Threads Coordinator CoordInstr}
    (halong : Along step (Threads.OnInput (fun _ => True) Honourable) (start q) as)
    (hrun : exec step (start q) as = some s) :
    ∀ k task outcome, s.shared.tasks k = some task → task.outcome = some outcome →
      (∀ p, outcome = some p →
        (∀ id ∈ task.members, ∀ result, (id, result) ∈ s.shared.returned →
          ∃ jobs, result = some jobs ∧ p.Honours (s.shared.asked id) jobs) ∧
        ∀ e ∈ p.pass.leased, ∃ id ∈ task.members,
          (∃ jobs, (id, some jobs) ∈ s.shared.returned ∧ e.2.1 ∈ jobs.map LeasedJob.seq) ∨
            ∃ t, ∃ i ∈ s.code t, i.reply? = some id) ∧
      (outcome = none → ∀ id ∈ task.members, ∀ jobs, (id, some jobs) ∈ s.shared.returned →
        jobs = []) := by
  have h : FaithfulRun s := exec_invariant_along step
    (fun _ _ _ hs hR hstep => FaithfulRun.step hs hR hstep) (faithfulRun_start q) halong hrun
  intro k task outcome htask hout
  obtain ⟨hclaimers, -, hmembers⟩ := h.led.sound.shared.passed k task htask
  have hagree := h.agreed.tasks k task htask
  -- what has returned is what this pass owes
  have howes : ∀ id ∈ task.members, ∀ result, (id, result) ∈ s.shared.returned →
      Owes task.members id result outcome := by
    intro id hid result hmem
    obtain ⟨-, k', task', outcome', hplace, htask', hout', howes⟩ := h.agreed.returned _ hmem
    rw [(hmembers id hid).2] at hplace
    cases hplace
    rw [htask] at htask'
    cases htask'
    rw [hout] at hout'
    cases hout'
    exact howes
  refine ⟨?_, ?_⟩
  · rintro p rfl
    obtain ⟨env, q', rfl⟩ := h.agreed.served k task p htask hout
    have hreturned : ∀ id ∈ task.members, ∀ result, (id, result) ∈ s.shared.returned →
        ∃ jobs, result = some jobs ∧
          (env.serve q' task.claimers task.leaseMs).Honours (s.shared.asked id) jobs := by
      intro id hid result hmem
      refine ⟨_, howes id hid result hmem, ?_⟩
      apply env.honours_slice q'
      · rw [hclaimers, List.map_map]
        exact hagree.nodes
      · rw [hclaimers, getElem?_map]
        have hlt := idxOf_lt_length_of_mem hid
        rw [getElem?_eq_getElem hlt, getElem_idxOf hlt]
        rfl
      · exact hagree.max id hid
      · exact hagree.lease id hid
    refine ⟨hreturned, fun e he => ?_⟩
    -- the claimer the job was leased to
    obtain ⟨c, hc, hl⟩ := (ClaimPass.handed_runClaimCohort q' env.index env.head task.claimers
      ⟨env.maxDeliveries, env.deadLetter, leaseDeadline env.now env.leaseMs task.leaseMs⟩
      env.now).leased e he
    rw [hclaimers, getElem?_map] at hc
    obtain ⟨id, hid, rfl⟩ := map_eq_some_iff.mp hc
    have hmem := mem_of_getElem? hid
    refine ⟨id, hmem, ?_⟩
    rcases (h.code (s.shared.caller id)).attended id (hmembers id hmem).1 rfl with
      ⟨result, hres⟩ | ⟨i, hi, hreply⟩
    · obtain ⟨jobs, rfl, hhonours⟩ := hreturned id hmem result hres
      refine .inl ⟨jobs, hres, (hhonours.own e.2.1).mpr ⟨mem_map_of_mem he, ?_⟩⟩
      simp only [PassEnv.serve, PassEnv.run, hl]
      rfl
    · exact .inr ⟨_, i, hi, hreply⟩
  · rintro rfl id hid jobs hmem
    rcases howes id hid _ hmem with hnil | hnone
    · exact some.inj hnil
    · cases hnone

/-! ## Two claims -/

def twoJobs : PassEnv where
  now := 0
  index := ⟨1, [.plain none, .plain none], ∅, 0⟩
  head := 2
  maxDeliveries := 0
  deadLetter := false
  leaseMs := 30000
  resolve := fun _ => none

/-- Two claims for one job each go through one pass. -/
def sharedPass (leaseMs leaseMs' : Option Nat) : List (ThreadAction CoordCall Wake) :=
  [.start 0 (.claim "a" 1 leaseMs), .run 0 (.config 5), .run 0 .go, .run 0 .go,
    .start 1 (.claim "b" 1 leaseMs'), .run 1 (.config 5), .run 1 .go, .run 1 .go,
    .run 0 .go, .run 0 .go, .run 0 .go, .run 0 .go, .start 2 (.execute 0), .run 2 (.pass twoJobs),
    .run 0 .go, .run 0 .go, .run 0 .go, .run 0 .go, .run 0 .go, .run 0 (.clock 0),
    .run 1 .go, .run 1 (.clock 0)]

/-- Seqs and deadlines of what the callers received. -/
def received (s : Coordinator) : List (Nat × Option (List (Nat × Int))) :=
  s.returned.map fun e => (e.1, e.2.map fun jobs => jobs.map fun j => (j.seq, j.deadline))

/-- Two claims with one lease. -/
theorem claims_honoured_pair :
    ∃ s task p, exec step (start (.new 1)) (sharedPass none none) = some s ∧
      s.shared.received = [(0, some [(1, 30000)]), (1, some [(2, 30000)])] ∧
      s.shared.tasks 0 = some task ∧ task.outcome = some (some p) ∧ task.members = [0, 1] ∧
      ∀ id ∈ task.members, ∀ result, (id, result) ∈ s.shared.returned →
        ∃ jobs, result = some jobs ∧ p.Honours (s.shared.asked id) jobs := by
  obtain ⟨s, task, p, hrun, hreceived, htask, hout, hmembers⟩ :
      ∃ s task p, exec step (start (.new 1)) (sharedPass none none) = some s ∧
        s.shared.received = [(0, some [(1, 30000)]), (1, some [(2, 30000)])] ∧
        s.shared.tasks 0 = some task ∧ task.outcome = some (some p) ∧ task.members = [0, 1] :=
    ⟨_, _, _, rfl, by decide +kernel, rfl, rfl, rfl⟩
  refine ⟨s, task, p, hrun, hreceived, htask, hout, hmembers, ?_⟩
  exact ((claims_honoured (by decide +kernel) hrun 0 task (some p) htask hout).1 p rfl).1

/-- **The lease of the leader.**  The second claim asks for a minute and gets a second, because the
leader of its cohort asked for a second. -/
theorem lease_of_the_leader :
    ∃ s, exec step (start (.new 1)) (sharedPass (some 1000) (some 60000)) = some s ∧
      (s.shared.asked 1).leaseMs = some 60000 ∧
      s.shared.received = [(0, some [(1, 1000)]), (1, some [(2, 1000)])] ∧
      leaseDeadline twoJobs.now twoJobs.leaseMs (some 60000) = 60000 :=
  ⟨_, rfl, rfl, by decide +kernel, by decide⟩

end Coordinator

end Topics
