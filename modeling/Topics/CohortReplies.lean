import Mathlib.Tactic.IntervalCases
import Topics.CohortLeaders
import Topics.Lib.Liveness

/-!
# The replies of a cohort

From the moment a claim is in a cohort its leader carries it: through the window and the drain to the
pool, and from there to the channel of its caller.  In a fair run the leader gets there.
-/

namespace Topics

open Lib Function PendingClaimer List Coordinator

def Reply.arrived : Reply → Bool
  | .waiting => false
  | _ => true

namespace Coordinator

variable {s s' : Coordinator} {t t' : Nat}

/-! ## The way to a reply -/

/-- The step of a claim that thread `t` has ahead of it. -/
def claimAt (s : Threads Coordinator CoordInstr) (t : Nat) : Option ClaimInstr :=
  (s.code t).head?.bind CoordInstr.claim?

theorem claimAt_of_code {s : Threads Coordinator CoordInstr} {t : Nat} {i : CoordInstr}
    (h : s.code t = [i]) : claimAt s t = i.claim? := by
  simp [claimAt, h]

theorem claimAt_update_of_ne {s : Threads Coordinator CoordInstr} {t t' : Nat} (ht : t ≠ t')
    (shared : Coordinator) (code : List CoordInstr) :
    claimAt ⟨shared, update s.code t' code⟩ t = claimAt s t := by
  simp only [claimAt, update_of_ne ht]

variable {o : ClaimStep} {x : Wake} {i : ClaimInstr} {c : Coalesced}

theorem claimAt_update_resume {s : Threads Coordinator CoordInstr} {t : Nat} {owner : ClaimOwner}
    {j : ClaimInstr} (hj : o.next? = some j) (shared : Coordinator) :
    claimAt ⟨shared, update s.code t ((owner.resume o).code [])⟩ t = some j := by
  rcases owner.code_resume o with ⟨j', hj', hcode⟩ | ⟨hnone, -⟩
  · rw [hj] at hj'
    cases hj'
    simp only [claimAt, update_self, hcode]
    rfl
  · rw [hj] at hnone
    cases hnone

def ready (s : Coordinator) : CoordInstr → Bool
  | .claim _ (.direct _ k) | .claim _ (.running _ k _) =>
    ((s.tasks k).bind PoolTask.outcome).isSome
  | .claim _ (.recv c) => (s.replies c.reply).arrived
  | .execute k => (s.tasks k).any fun task => task.outcome.isNone
  | _ => true

/-- The blocking pool runs every task it is given. -/
def PoolRuns (σ : Nat → Threads Coordinator CoordInstr) : Prop :=
  ∀ n k, ((σ n).shared.tasks k).isSome = true →
    ∃ m, n ≤ m ∧ (((σ m).shared.tasks k).bind PoolTask.outcome).isSome = true

/-- The claim `r` is in the hands of a thread with this step ahead of it. -/
def Carries (s : Coordinator) (r : Nat) : ClaimInstr → Prop
  | .window _ h | .drain _ h => r ∈ (s.cohorts h).claimers.map reply
  | .remove _ _ drained | .spawn _ drained | .running _ _ drained =>
    r ∈ drained.map reply
  | .send _ todo _ => r ∈ todo.map Prod.fst
  | _ => False

/-- The steps of a leader up to the pass, counted down. -/
def toPass : ClaimInstr → Option Nat
  | .window .. => some 3
  | .drain .. => some 2
  | .remove .. => some 1
  | .spawn .. => some 0
  | _ => none

variable {r : Nat}

theorem map_fst_fanOut (drained : List PendingClaimer) (results : List (List LeasedJob)) :
    (fanOut drained results).map Prod.fst = drained.map reply := by
  calc (fanOut drained results).map Prod.fst
      = (drained.zipIdx.map Prod.fst).map reply := by
        simp only [fanOut, map_map, comp_def]
    _ = drained.map reply := by rw [zipIdx_map_fst]

theorem carries_toPass {n : Nat} (hsteps : ClaimInstr.Steps s t x i o) (hc : s.Carries r i)
    (hi : toPass i = some n) (hx : i.leads?.isSome = true → x.cancels = false) :
    ∃ j, o.next? = some j ∧ o.shared.Carries r j ∧
      ((∃ m, toPass j = some m ∧ m < n) ∨ ∃ c k drained, j = .running c k drained) := by
  cases hsteps with
  | wake c k =>
    cases hi
    exact ⟨_, rfl, hc, .inl ⟨2, rfl, by omega⟩⟩
  | dropWindow c k => exact absurd (hx rfl) (by simp [Wake.cancels])
  | drain c k =>
    cases hi
    exact ⟨_, rfl, hc, .inl ⟨1, rfl, by omega⟩⟩
  | remove c k drained =>
    cases hi
    exact ⟨_, rfl, hc, .inl ⟨0, rfl, by omega⟩⟩
  | spawn c drained => exact ⟨_, rfl, hc, .inr ⟨_, _, _, rfl⟩⟩
  | _ => cases hi

theorem carries_pass {k : Nat} {drained : List PendingClaimer}
    (hsteps : ClaimInstr.Steps s t x (.running c k drained) o)
    (hc : r ∈ drained.map reply) :
    (o.shared.replies r).arrived = true ∨ ∃ todo failed,
      o.next? = some (.send c todo failed) ∧ r ∈ todo.map Prod.fst ∧
        todo.length = drained.length := by
  cases hsteps with
  | served _ _ _ htask hdone | refused _ _ _ htask hdone =>
    refine .inr ⟨_, _, rfl, ?_, by simp [fanOut]⟩
    rw [map_fst_fanOut]
    exact hc
  | dropRunning =>
    left
    simp only [ClaimStep.shared, dropReplies, hc, if_true]
    rfl

theorem carries_send {todo : List (Nat × List LeasedJob)} {failed : Bool}
    (hsteps : ClaimInstr.Steps s t x (.send c todo failed) o) (hc : r ∈ todo.map Prod.fst) :
    (o.shared.replies r).arrived = true ∨ ∃ todo', o.next? = some (.send c todo' failed) ∧
      r ∈ todo'.map Prod.fst ∧ todo'.length < todo.length := by
  cases hsteps with
  | error | sent => cases hc
  | answer _ reply jobs todo =>
    rcases mem_cons.mp hc with rfl | hc
    · left
      simp [ClaimStep.shared, answer, Reply.arrived]
    · exact .inr ⟨todo, rfl, hc, by simp⟩

theorem Carries.other {j : CoordInstr} {o : Outcome Coordinator CoordInstr} (hc : s.Carries r i)
    (hsteps : Steps s t' x j o) (hj : s.LeadCode t' [j])
    (hi : ∀ h ∈ i.leads?, (s.cohorts h).leader = some t) (ht : t ≠ t') :
    o.shared.Carries r i := by
  cases i with
  | window c h | drain c h =>
    obtain ⟨p, hp, rfl⟩ := mem_map.mp hc
    exact mem_map_of_mem (claimers_of_steps hsteps hj (hi h rfl) ht p hp)
  | _ => exact hc

/-! ## Every fair run -/

section Fair

variable {σ : Nat → Threads Coordinator CoordInstr} {act : Nat → Option (ThreadAction CoordCall Wake)}

/-- Thread `t` has the step `i` ahead of it, and claim `r` in its hands. -/
structure CarriedAt (t r : Nat) (i : ClaimInstr) (s : Threads Coordinator CoordInstr) : Prop where
  at_ : claimAt s t = some i
  carries : s.shared.Carries r i

variable {i : ClaimInstr} {a : ThreadAction CoordCall Wake}

theorem CarriedAt.step {s s' : Threads Coordinator CoordInstr} (hc : CarriedAt t r i s)
    (h : LedRun s) (hR : Threads.OnInput (fun _ => True) LeadersStay s a)
    (hstep : Coordinator.step s a = some s') :
    (CarriedAt t r i s' ∧ ∀ x, a ≠ .run t x) ∨
    ∃ x o, a = .run t x ∧ ClaimInstr.Steps s.shared t x i o ∧ s'.shared = o.shared ∧
      (i.leads?.isSome = true → x.cancels = false) ∧
      ∀ j, o.next? = some j → claimAt s' t = some j := by
  obtain ⟨hat, hcarries⟩ := hc
  have hcode : ∃ owner, s.code t = [.claim owner i] := by
    have hlen := (h.sound.code t).1
    cases hcode : s.code t with
    | nil => simp [claimAt, hcode] at hat
    | cons i' rest =>
      rw [hcode, length_cons] at hlen
      cases rest with
      | cons => simp at hlen
      | nil =>
        simp only [claimAt, hcode, head?_cons, Option.bind_some] at hat
        cases i' with
        | claim owner j =>
          cases hat
          exact ⟨owner, rfl⟩
        | _ => cases hat
  obtain ⟨owner, hcode⟩ := hcode
  have hlead := h.led.code t
  rw [hcode] at hlead
  obtain ⟨t', c, rfl, hidle, rfl⟩ | ⟨t', x, i', o, rfl, hcode', hsteps, rfl⟩ := h.sound.steps hstep
  · have hne : t ≠ t' := by
      rintro rfl
      rw [hcode] at hidle
      cases hidle
    exact .inl ⟨⟨(claimAt_update_of_ne hne _ _).trans hat, hcarries⟩, fun x hx => by cases hx⟩
  · by_cases hne : t = t'
    · subst hne
      rw [hcode, cons.injEq] at hcode'
      obtain ⟨rfl, -⟩ := hcode'
      have hx := hR _ (by rw [hcode]; rfl)
      cases hsteps with
      | claim _ hclaim =>
        refine .inr ⟨x, _, rfl, hclaim, owner.shared_resume _, hx, fun j hj => ?_⟩
        exact claimAt_update_resume hj _
      | stream w hi => rcases hi with hi | hi | hi | ⟨jobs, hi⟩ <;> cases hi
      | other q hi => exact absurd rfl (hi owner i)
    · have hother := h.led.code t'
      rw [hcode'] at hother
      refine .inl ⟨⟨(claimAt_update_of_ne hne _ _).trans hat, ?_⟩, fun x hx => ?_⟩
      · exact hcarries.other hsteps hother (hlead.leader _ (mem_singleton_self _)) hne
      · cases hx
        exact hne rfl

theorem runnable_of_claimAt {s : Threads Coordinator CoordInstr} (hat : claimAt s t = some i)
    (hready : ∀ owner, ready s.shared (.claim owner i) = true) :
    s.Runnable (fun s i => ready s i = true) t := by
  obtain ⟨i', hi', hclaim⟩ := Option.bind_eq_some_iff.mp hat
  refine ⟨i', hi', ?_⟩
  cases i' with
  | claim owner j =>
    cases hclaim
    exact hready owner
  | _ => cases hclaim

/-- The reply of claim `r` is there. -/
def Answered (r : Nat) (s : Threads Coordinator CoordInstr) : Prop :=
  (s.shared.replies r).arrived = true

def Gathering (t r : Nat) (s : Threads Coordinator CoordInstr) : Prop :=
  ∃ i n, CarriedAt t r i s ∧ toPass i = some n

def Passing (t r : Nat) (s : Threads Coordinator CoordInstr) : Prop :=
  ∃ c k drained, CarriedAt t r (.running c k drained) s

/-- A leader whose pass has run, with the sends it has left. -/
def Sending (t r n : Nat) (s : Threads Coordinator CoordInstr) : Prop :=
  (∃ c k drained, CarriedAt t r (.running c k drained) s ∧ n = drained.length + 1 ∧
    ((s.shared.tasks k).bind PoolTask.outcome).isSome = true) ∨
  ∃ c todo failed, CarriedAt t r (.send c todo failed) s ∧ n = todo.length

theorem finished_of_step {s s' : Threads Coordinator CoordInstr} {k : Nat} (h : Sound s)
    (hstep : Coordinator.step s a = some s')
    (hdone : ((s.shared.tasks k).bind PoolTask.outcome).isSome = true) :
    ((s'.shared.tasks k).bind PoolTask.outcome).isSome = true := by
  obtain ⟨t, c, rfl, -, rfl⟩ | ⟨t, x, i, o, rfl, hcode, hsteps, rfl⟩ := h.steps hstep
  · exact hdone
  · have hi := (h.code t).2 i (by rw [hcode]; exact mem_singleton_self i)
    obtain ⟨-, hkeeps, -⟩ := seats_of_steps hsteps h.shared hi
    obtain ⟨outcome, hout⟩ := Option.isSome_iff_exists.mp hdone
    obtain ⟨task, htask, hout⟩ := Option.bind_eq_some_iff.mp hout
    obtain ⟨task', htask', -, -, hsame⟩ := hkeeps.tasks k task htask
    have hsame := hsame (by simp [hout])
    subst hsame
    simp [htask', hout]

variable (hrun : InfRun Coordinator.step σ act) (hled : ∀ n, LedRun (σ n))
  (hstay : ∀ n a, act n = some a → Threads.OnInput (fun _ => True) LeadersStay (σ n) a)
  (hfair : FairThreads (fun s i => ready s i = true) σ act) (hpool : PoolRuns σ)

include hrun hled hstay hfair in
theorem gathering_leadsTo (t r : Nat) : LeadsTo σ (Gathering t r) (Passing t r) := by
  apply hrun.leadsTo_of_helpful (μ := fun s => ((claimAt s t).bind toPass).getD 0)
    (F := fun a => ∃ x, a = .run t x)
  · rintro n a ha ⟨i, k, hc, hi⟩
    have hrank : ((claimAt (σ n) t).bind toPass).getD 0 = k := by simp [hc.at_, hi]
    rcases hc.step (hled n) (hstay n a ha) (hrun.move n a ha) with
      ⟨hc', hne⟩ | ⟨x, o, -, hsteps, hshared, hx, hnext⟩
    · refine .inr ⟨⟨i, k, hc', hi⟩, ?_, fun ⟨x, hx⟩ => absurd hx (hne x)⟩
      simp [hc'.at_, hc.at_]
    · obtain ⟨j, hj, hcarries, ⟨m, hm, hlt⟩ | ⟨c, k', drained, rfl⟩⟩ :=
        carries_toPass hsteps hc.carries hi hx
      · have hc' : CarriedAt t r j (σ (n + 1)) := ⟨hnext j hj, by rw [hshared]; exact hcarries⟩
        have hrank' : ((claimAt (σ (n + 1)) t).bind toPass).getD 0 = m := by simp [hc'.at_, hm]
        refine .inr ⟨⟨j, m, hc', hm⟩, ?_, fun _ => ?_⟩
        · simp only [hrank, hrank']
          exact hlt.le
        · simp only [hrank, hrank']
          exact hlt
      · exact .inl ⟨c, k', drained, hnext _ hj, by rw [hshared]; exact hcarries⟩
  · rintro n -
    obtain ⟨m, hm, hact⟩ := hfair t n
    refine ⟨m, hm, ?_⟩
    rintro ⟨i, k, hc, hi⟩
    have hready : ∀ owner, ready (σ m).shared (.claim owner i) = true := by
      intro owner
      cases i with
      | window | drain | remove | spawn => rfl
      | _ => cases hi
    obtain ⟨x, hx⟩ := hact (runnable_of_claimAt hc.at_ hready)
    exact ⟨_, hx, x, rfl⟩

include hrun hled hstay hpool in
theorem passing_leadsTo (t r : Nat) :
    LeadsTo σ (Passing t r) fun s => (∃ n, Sending t r n s) ∨ Answered r s := by
  rintro n ⟨c, k, drained, hc⟩
  -- the task is there, since the leader has submitted it
  have hseated : (σ n).shared.Seated t (.running c k drained) := by
    obtain ⟨i, hi, hclaim⟩ := Option.bind_eq_some_iff.mp hc.at_
    exact ((hled n).sound.code t).2 i (mem_of_mem_head? hi) _ hclaim
  obtain ⟨task, htask, -, -⟩ := hseated.2
  obtain ⟨m, hm, hdone⟩ := hpool n k (by simp [htask])
  have huntil := hrun.until (P := CarriedAt t r (.running c k drained))
    (Q := fun s => (∃ n, Sending t r n s) ∨ Answered r s) (μ := fun _ => 0) ?_ hm hc
  · rcases huntil with hQ | ⟨hc', -⟩
    · exact hQ
    · exact ⟨m, hm, .inl ⟨_, .inl ⟨c, k, drained, hc', rfl, hdone⟩⟩⟩
  · intro n' a ha hc'
    rcases hc'.step (hled n') (hstay n' a ha) (hrun.move n' a ha) with
      ⟨hc'', -⟩ | ⟨x, o, -, hsteps, hshared, -, hnext⟩
    · exact .inr ⟨hc'', le_rfl⟩
    · left
      rcases carries_pass hsteps hc'.carries with harrived | ⟨todo, failed, hj, hmem, -⟩
      · right
        rw [Answered, hshared]
        exact harrived
      · exact .inl ⟨_, .inr ⟨c, todo, failed, ⟨hnext _ hj, hmem⟩, rfl⟩⟩

include hrun hled hstay hfair in
theorem sending_leadsTo (t r n : Nat) : LeadsTo σ (Sending t r n) (Answered r) := by
  induction n using Nat.strong_induction_on with
  | _ n ih =>
  -- one step of the leader answers the claim, or leaves fewer sends
  have hstep : LeadsTo σ (Sending t r n) fun s =>
      (∃ m, m < n ∧ Sending t r m s) ∨ Answered r s := by
    apply hrun.leadsTo_of_helpful (μ := fun _ => 0) (F := fun a => ∃ x, a = .run t x)
    · rintro k a ha (⟨c, j, drained, hc, rfl, hdone⟩ | ⟨c, todo, failed, hc, rfl⟩)
      · rcases hc.step (hled k) (hstay k a ha) (hrun.move k a ha) with
          ⟨hc', hne⟩ | ⟨x, o, -, hsteps, hshared, -, hnext⟩
        · have hdone' := finished_of_step (hled k).sound (hrun.move k a ha) hdone
          exact .inr ⟨.inl ⟨c, j, drained, hc', rfl, hdone'⟩, le_rfl,
            fun ⟨x, hx⟩ => absurd hx (hne x)⟩
        · left
          rcases carries_pass hsteps hc.carries with harrived | ⟨todo, failed, hj, hmem, hlen⟩
          · right
            rw [Answered, hshared]
            exact harrived
          · refine .inl ⟨todo.length, by omega, .inr ⟨c, todo, failed, ⟨hnext _ hj, hmem⟩, rfl⟩⟩
      · rcases hc.step (hled k) (hstay k a ha) (hrun.move k a ha) with
          ⟨hc', hne⟩ | ⟨x, o, -, hsteps, hshared, -, hnext⟩
        · exact .inr ⟨.inr ⟨c, todo, failed, hc', rfl⟩, le_rfl,
            fun ⟨x, hx⟩ => absurd hx (hne x)⟩
        · left
          rcases carries_send hsteps hc.carries with harrived | ⟨todo', hj, hmem, hlen⟩
          · right
            rw [Answered, hshared]
            exact harrived
          · exact .inl ⟨todo'.length, hlen, .inr ⟨c, todo', failed, ⟨hnext _ hj, hmem⟩, rfl⟩⟩
    · rintro k -
      obtain ⟨m, hm, hact⟩ := hfair t k
      refine ⟨m, hm, ?_⟩
      rintro (⟨c, j, drained, hc, -, hdone⟩ | ⟨c, todo, failed, hc, -⟩)
      · obtain ⟨x, hx⟩ := hact (runnable_of_claimAt hc.at_ fun _ => hdone)
        exact ⟨_, hx, x, rfl⟩
      · obtain ⟨x, hx⟩ := hact (runnable_of_claimAt hc.at_ fun _ => rfl)
        exact ⟨_, hx, x, rfl⟩
  intro k hk
  obtain ⟨m, hkm, ⟨j, hj, hsend⟩ | hans⟩ := hstep k hk
  · obtain ⟨m', hm', hans⟩ := ih j hj m hsend
    exact ⟨m', hkm.trans hm', hans⟩
  · exact ⟨m, hkm, hans⟩

end Fair

/-- **Cohorts have leaders.**  In every run in which no leader is dropped while it sleeps the window,
every cohort in the map that is open and not empty has a leader that has not drained it yet; and if the
run is fair and the pool runs its tasks, every claimer that joins a cohort finds a reply. -/
theorem cohorts_led {q : QueueProjection} {σ : Nat → Threads Coordinator CoordInstr}
    {act : Nat → Option (ThreadAction CoordCall Wake)} (hrun : InfRun Coordinator.step σ act)
    (hstart : σ 0 = start q)
    (hstay : ∀ n a, act n = some a → Threads.OnInput (fun _ => True) LeadersStay (σ n) a) :
    (∀ n h, (σ n).shared.forming = some h → ((σ n).shared.cohorts h).closed = false →
      ((σ n).shared.cohorts h).claimers ≠ [] → ∃ t i, (σ n).code t = [i] ∧ i.leads? = some h) ∧
    (FairThreads (fun s i => ready s i = true) σ act → PoolRuns σ →
      ∀ n h, ∀ p ∈ ((σ n).shared.cohorts h).claimers, ∃ m, n ≤ m ∧ Answered p.reply (σ m)) := by
  have hled : ∀ n, LedRun (σ n) :=
    hrun.invariant (fun s a s' hs hR hstep => hs.step hR hstep) hstay (hstart ▸ ledRun_start q)
  have hleader : ∀ n h, ((σ n).shared.cohorts h).claimers ≠ [] →
      ∃ t i, (σ n).code t = [i] ∧ i.leads? = some h := by
    intro n h hne
    have hsome := mt ((hled n).led.shared.led h).mp hne
    obtain ⟨t, ht⟩ := Option.ne_none_iff_exists'.mp hsome
    obtain ⟨i, hi, hlead⟩ := ((hled n).led.code t).leads h ht
    have hlen := ((hled n).sound.code t).1
    obtain ⟨pre, post, hcode⟩ := append_of_mem hi
    rw [hcode, length_append, length_cons] at hlen
    have hpre : pre = [] := eq_nil_of_length_eq_zero (by omega)
    have hpost : post = [] := eq_nil_of_length_eq_zero (by omega)
    subst hpre hpost
    exact ⟨t, i, hcode, hlead⟩
  refine ⟨fun n h _ _ hne => hleader n h hne, fun hfair hpool n h p hp => ?_⟩
  obtain ⟨t, i, hcode, hlead⟩ := hleader n h (ne_nil_of_mem hp)
  -- the leader has the claim in its hands, and takes it through the three stages
  have hgather : Gathering t p.reply (σ n) := by
    obtain ⟨j, hj, hjlead⟩ := Option.bind_eq_some_iff.mp hlead
    have hat : claimAt (σ n) t = some j := (claimAt_of_code hcode).trans hj
    have hmem := mem_map_of_mem (f := reply) hp
    cases j with
    | window c k =>
      cases hjlead
      exact ⟨_, 3, ⟨hat, hmem⟩, rfl⟩
    | drain c k =>
      cases hjlead
      exact ⟨_, 2, ⟨hat, hmem⟩, rfl⟩
    | _ => cases hjlead
  have hsend : LeadsTo σ (fun s => ∃ n, Sending t p.reply n s) (Answered p.reply) := by
    rintro m ⟨k, hk⟩
    exact sending_leadsTo hrun hled hstay hfair t p.reply k m hk
  have hall := (gathering_leadsTo hrun hled hstay hfair t p.reply).trans
    ((passing_leadsTo hrun hled hstay hpool t p.reply).chain hsend)
  exact hall n hgather

/-! ## Two claims -/

/-- A claim of thread `t` up to its place in a cohort. -/
def joinCohort (t : Nat) (node : String) : List (ThreadAction CoordCall Wake) :=
  [.start t (.claim node 1 none), .run t (.config 5), .run t .go, .run t .go]

/-- Two claims, one pass without a job, and both replies. -/
def servedPair : List (ThreadAction CoordCall Wake) :=
  joinCohort 0 "a" ++ joinCohort 1 "b" ++
    [.run 0 .go, .run 0 .go, .run 0 .go, .run 0 .go, .start 2 (.execute 0), .run 2 .fail,
      .run 0 .go, .run 0 .go, .run 0 .go, .run 0 .go, .run 1 .go, .run 1 (.clock 0)]

theorem poolRuns_stateAt {q : QueueProjection} {s : Threads Coordinator CoordInstr}
    {as : List (ThreadAction CoordCall Wake)} (hrun : exec Coordinator.step (start q) as = some s)
    (hdone : ∀ k < s.shared.nextTask,
      ((s.shared.tasks k).bind PoolTask.outcome).isSome = true) :
    PoolRuns (stateAt Coordinator.step (start q) as) := by
  intro n k hk
  have hinf := infRun_stateAt hrun
  have hsound : ∀ n, Sound (stateAt step (start q) as n) :=
    hinf.invariant (C := fun _ _ => True) (fun _ _ _ hs _ hstep => hs.step hstep)
      (fun _ _ _ => trivial) (sound_start q)
  refine ⟨max n as.length, le_max_left _ _, ?_⟩
  -- a task that is there stays there
  have hstays := hinf.until (P := fun s => (s.shared.tasks k).isSome = true) (Q := fun _ => False)
    (μ := fun _ => 0) ?_ (le_max_left n as.length) hk
  · rw [stateAt_of_length_le hrun (le_max_right _ _)] at hstays ⊢
    rcases hstays with ⟨_, -, hfalse⟩ | ⟨hsome, -⟩
    · cases hfalse
    · apply hdone
      by_contra hlt
      have hs := hsound as.length
      rw [stateAt_of_length_le hrun le_rfl] at hs
      rw [hs.shared.freshTask k (not_lt.mp hlt)] at hsome
      cases hsome
  · intro m a ha hsome
    refine .inr ⟨?_, le_rfl⟩
    obtain ⟨t, c, rfl, -, heq⟩ | ⟨t, x, i, o, rfl, hcode, hsteps, heq⟩ :=
      (hsound m).steps (hinf.move m a ha)
    · rw [heq]
      exact hsome
    · have hi := ((hsound m).code t).2 i (by rw [hcode]; exact mem_singleton_self i)
      obtain ⟨-, hkeeps, -⟩ := seats_of_steps hsteps (hsound m).shared hi
      obtain ⟨task, htask⟩ := Option.isSome_iff_exists.mp hsome
      obtain ⟨task', htask', -⟩ := hkeeps.tasks k task htask
      rw [heq]
      simp [htask']

/-- Two claims of one cohort are answered. -/
theorem cohorts_led_pair :
    ∃ p ∈ ((stateAt Coordinator.step (start (.new 1)) servedPair 8).shared.cohorts 0).claimers,
      p.reply = 1 ∧
        ∃ m, 8 ≤ m ∧ Answered 1 (stateAt Coordinator.step (start (.new 1)) servedPair m) := by
  obtain ⟨s, hrun, hcode, hnext, hdone⟩ :
      ∃ s, exec step (start (.new 1)) servedPair = some s ∧
        (s.code 0 = [] ∧ s.code 1 = [] ∧ s.code 2 = []) ∧ s.shared.nextTask = 1 ∧
        ((s.shared.tasks 0).bind PoolTask.outcome).isSome = true :=
    ⟨_, rfl, ⟨rfl, rfl, rfl⟩, rfl, rfl⟩
  have hidle : ∀ t, s.code t = [] := by
    intro t
    by_cases ht : t ≤ 2
    · interval_cases t
      · exact hcode.1
      · exact hcode.2.1
      · exact hcode.2.2
    · refine code_of_thread_ne ?_ hrun
      have hthreads : ∀ a ∈ servedPair, a.thread ≤ 2 := by decide
      intro a ha heq
      have := hthreads a ha
      omega
  have hstay : Along step (Threads.OnInput (fun _ => True) LeadersStay)
      (start (.new 1)) servedPair := by decide +kernel
  have hfair : FairThreads (fun s i => ready s i = true)
      (stateAt step (start (.new 1)) servedPair) fun n => servedPair[n]? := by
    refine fairThreads_stateAt hrun fun t => ?_
    rintro ⟨i, hi, -⟩
    rw [hidle t] at hi
    cases hi
  have hpool : PoolRuns (stateAt step (start (.new 1)) servedPair) := by
    refine poolRuns_stateAt hrun fun k hk => ?_
    rw [hnext] at hk
    interval_cases k
    exact hdone
  refine ⟨⟨⟨"b", 1, none⟩, 1⟩, by decide +kernel, rfl, ?_⟩
  exact (cohorts_led (infRun_stateAt hrun) (stateAt_zero _ _) (fun n a ha => hstay.stateAt hrun n a ha)).2
    hfair hpool 8 0 ⟨⟨"b", 1, none⟩, 1⟩ (by decide +kernel)

/-- **A cohort without a leader.**  The first of two claims is dropped while it sleeps the window.  The
cohort stays in the map, open and not empty, with nobody to drain it; the second claim waits, and so
does every claim that comes later. -/
theorem cohort_without_leader :
    ∃ s, exec Coordinator.step (start (.new 1))
        (joinCohort 0 "a" ++ joinCohort 1 "b" ++ [.run 0 .cancel]) = some s ∧
      s.shared.forming = some 0 ∧ (s.shared.cohorts 0).closed = false ∧
      (s.shared.cohorts 0).claimers.map reply = [0, 1] ∧
      (∀ t, ∀ i ∈ s.code t, i.leads? ≠ some 0) ∧
      (s.shared.replies 1).arrived = false ∧
      ∀ as s', exec Coordinator.step s as = some s' → s'.shared.forming = some 0 ∧
        ∀ p ∈ (s.shared.cohorts 0).claimers, p ∈ (s'.shared.cohorts 0).claimers := by
  obtain ⟨s, hrun, hform, hopen, hmembers, ⟨h0, h1⟩, hreply⟩ :
      ∃ s, exec step (start (.new 1))
          (joinCohort 0 "a" ++ joinCohort 1 "b" ++ [.run 0 .cancel]) = some s ∧
        s.shared.forming = some 0 ∧ (s.shared.cohorts 0).closed = false ∧
        (s.shared.cohorts 0).claimers.map reply = [0, 1] ∧
        (s.code 0 = [] ∧ s.code 1 = [.claim .post (.recv ⟨⟨"b", 1, none⟩, none, 1⟩)]) ∧
        (s.shared.replies 1).arrived = false :=
    ⟨_, rfl, rfl, rfl, rfl, ⟨rfl, rfl⟩, rfl⟩
  have hnobody : ∀ t, ∀ i ∈ s.code t, i.leads? ≠ some 0 ∧ i.past? ≠ some 0 := by
    intro t i hi
    by_cases ht : t ≤ 1
    · interval_cases t
      · rw [h0] at hi
        cases hi
      · rw [h1, mem_singleton] at hi
        subst hi
        exact ⟨nofun, nofun⟩
    · have hcode : s.code t = [] := by
        refine code_of_thread_ne ?_ hrun
        have hthreads : ∀ a ∈ joinCohort 0 "a" ++ joinCohort 1 "b" ++ [.run 0 .cancel],
            a.thread ≤ 1 := by decide
        intro a ha heq
        have := hthreads a ha
        omega
      rw [hcode] at hi
      cases hi
  have horphan : Orphaned 0 s :=
    ⟨hform, hopen, fun hcontra => by simp [hcontra] at hmembers, hnobody⟩
  have hsound : Sound s :=
    exec_invariant step (fun _ _ _ hs hstep => hs.step hstep) (sound_start _) hrun
  refine ⟨s, hrun, hform, hopen, hmembers, fun t i hi => (hnobody t i hi).1, hreply,
    fun as s' hrun' => ?_⟩
  obtain ⟨ho, hmem⟩ := orphaned_forever horphan hsound hrun'
  exact ⟨ho.formed, hmem⟩

end Coordinator

end Topics
