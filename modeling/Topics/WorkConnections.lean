import Topics.ClaimPlaces

/-!
# The leases of a dropped connection

When a `/work` stream ends, its guard releases the leases of the connection.  A claim of the stream
that has been handed to the pool, or that another caller's cohort has gathered, is not stopped by
that: its pass may come later, and leases jobs to a connection that is gone.
-/

namespace Topics

open Lib List Option Function

namespace Coordinator

variable {s s' : Coordinator} {t t' : Nat}

/-- The pass of claim `id` has run. -/
def served (s : Coordinator) (id : Nat) : Bool :=
  match s.place id with
  | .passed k => ((s.tasks k).bind PoolTask.outcome).isSome
  | _ => false

theorem served_iff {id : Nat} : s.served id = true ↔
    ∃ k task, s.place id = .passed k ∧ s.tasks k = some task ∧ task.outcome ≠ none := by
  unfold served
  cases hplace : s.place id with
  | passed k =>
    constructor
    · intro h
      obtain ⟨outcome, hout⟩ := isSome_iff_exists.mp h
      obtain ⟨task, htask, hout⟩ := bind_eq_some_iff.mp hout
      exact ⟨k, task, rfl, htask, by simp [hout]⟩
    · rintro ⟨k', task, hk, htask, hout⟩
      cases hk
      simp only [htask, bind_some]
      exact isSome_iff_ne_none.mpr hout
  | _ => simp

theorem Keeps.served (h : Keeps t s s') {id : Nat} (hid : id < s.nextReply)
    (hserved : s.served id = true) : s'.served id = true := by
  obtain ⟨k, task, hplace, htask, hout⟩ := served_iff.mp hserved
  obtain ⟨task', htask', -, -, hsame⟩ := h.tasks k task htask
  refine served_iff.mpr ⟨k, task', h.passed id k hid hplace, htask', ?_⟩
  rw [hsame hout]
  exact hout

end Coordinator

/-- The connection whose guard an instruction drops. -/
def CoordInstr.releases? : CoordInstr → Option Nat
  | .release conn => some conn
  | _ => none

def ClaimOwner.conn? : ClaimOwner → Option Nat
  | .post => none
  | .work w => some w.conn

/-- The connection an instruction belongs to. -/
def CoordInstr.conn? : CoordInstr → Option Nat
  | .claim owner _ => owner.conn?
  | .opened w | .top w | .deliver w _ | .park w => some w.conn
  | .release conn => some conn
  | _ => none

namespace Coordinator

variable {s s' : Coordinator} {t t' : Nat}

/-- When a guard is dropped, every claim of its connection has been served. -/
def Settled (s : Coordinator) (_ : Nat) (_ : Wake) (i : CoordInstr) : Prop :=
  ∀ conn ∈ i.releases?, ∀ id < s.nextReply, (s.asked id).workConn = some conn → s.served id = true

instance (s : Coordinator) (t : Nat) (x : Wake) (i : CoordInstr) : Decidable (Settled s t x i) := by
  unfold Settled
  infer_instance

/-- A released connection has no leases and no claims that are still to be served. -/
structure Live (s : Coordinator) : Prop where
  leases : ∀ conn ∈ s.released, s.q.Without conn
  claims : ∀ id < s.nextReply, ∀ conn ∈ s.released, (s.asked id).workConn = some conn →
    s.served id = true
  known : ∀ conn ∈ s.released, conn ≤ s.nextConn

/-- Connection `conn` is the one of thread `t`, and its guard is in place. -/
structure Guarded (s : Coordinator) (t conn : Nat) : Prop where
  live : conn ∉ s.released
  owner : s.stream conn = t
  known : conn ≤ s.nextConn

/-- What holds of the code of a stream. -/
def GuardedCode (s : Coordinator) (t : Nat) (code : List CoordInstr) : Prop :=
  ∀ i ∈ code, (∀ conn ∈ i.conn?, s.Guarded t conn) ∧ ∀ r ∈ i.request?, r.workConn = i.conn?

theorem guardedCode_nil : s.GuardedCode t [] := nofun

variable {i : CoordInstr} {x : Wake} {o : ClaimStep}

theorem guardedCode_singleton (hconn : ∀ conn ∈ i.conn?, s.Guarded t conn)
    (hrequest : ∀ r ∈ i.request?, r.workConn = i.conn?) : s.GuardedCode t [i] := by
  intro j hj
  rw [mem_singleton] at hj
  subst hj
  exact ⟨hconn, hrequest⟩

/-- The steps that open and release no connection. -/
structure SameConns (s s' : Coordinator) : Prop where
  released : s'.released = s.released
  stream : s'.stream = s.stream
  nextConn : s'.nextConn = s.nextConn

theorem sameConns_finish (s : Coordinator) (k : Nat) (task : PoolTask) (q : QueueProjection)
    (outcome : Option ServedPass) : SameConns s (s.finish k task q outcome) :=
  ⟨rfl, rfl, rfl⟩

theorem SameConns.guarded (h : SameConns s s') {conn : Nat} (hg : s.Guarded t conn) :
    s'.Guarded t conn :=
  ⟨h.released ▸ hg.live, h.stream ▸ hg.owner, h.nextConn ▸ hg.known⟩

theorem SameConns.guardedCode (h : SameConns s s') {code : List CoordInstr}
    (hcode : s.GuardedCode t code) : s'.GuardedCode t code :=
  fun i hi => ⟨fun conn hc => h.guarded ((hcode i hi).1 conn hc), (hcode i hi).2⟩

/-- A step that issues no claim and brings no lease of a released connection. -/
theorem Live.of_same (h : s.Live) (hconns : SameConns s s') (hkeeps : Keeps t s s')
    (hnext : s'.nextReply = s.nextReply) (hq : ∀ conn ∈ s.released, s'.q.Without conn) :
    s'.Live := by
  refine ⟨?_, fun id hid conn hconn hasked => ?_, ?_⟩
  · rw [hconns.released]
    exact hq
  · rw [hnext] at hid
    rw [hconns.released] at hconn
    rw [hkeeps.asked id hid] at hasked
    exact hkeeps.served hid (h.claims id hid conn hconn hasked)
  · rw [hconns.released, hconns.nextConn]
    exact h.known

/-! ## One step -/

/-- A step of a claim issues at most one new claim, the one it was called for. -/
theorem claims_of_claimSteps {i : ClaimInstr} (hsteps : ClaimInstr.Steps s t x i o) :
    SameConns s o.shared ∧ (∀ conn, s.q.Without conn → o.shared.q.Without conn) ∧
      (o.shared.nextReply = s.nextReply ∨ ∃ r, i = .enter r ∧ o.shared = s.ticket t r) := by
  have hunform : ∀ h, SameConns s (s.unform h) ∧
      (∀ conn, s.q.Without conn → (s.unform h).q.Without conn) ∧
        (s.unform h).nextReply = s.nextReply := by
    intro h
    unfold unform
    split
    all_goals exact ⟨⟨rfl, rfl, rfl⟩, fun _ hq => hq, rfl⟩
  cases hsteps with
  | alone r | call j r => exact ⟨⟨rfl, rfl, rfl⟩, fun _ hq => hq, .inr ⟨r, rfl, rfl⟩⟩
  | retry c k | remove c k drained =>
    obtain ⟨hsame, hq, hnext⟩ := hunform k
    exact ⟨hsame, hq, .inl hnext⟩
  | finish c jobs now => exact ⟨⟨rfl, rfl, rfl⟩, fun _ hq => hq.sweepExpired now, .inl rfl⟩
  | _ => exact ⟨⟨rfl, rfl, rfl⟩, fun _ hq => hq, .inl rfl⟩

theorem request?_eq_none_of_steps {i j : ClaimInstr} (hsteps : ClaimInstr.Steps s t x i o)
    (hj : o.next? = some j) (owner : ClaimOwner) :
    (CoordInstr.claim owner j).request? = none := by
  cases hsteps with
  | _ =>
    first
    | cases hj
      done
    | cases hj
      rfl

/-- **One step.**  The stream that takes it keeps its guard or drops it, and no released connection
gets a lease or a claim. -/
theorem live_of_steps {o : Outcome Coordinator CoordInstr} (hsteps : Steps s t x i o)
    (hs : s.Seats) (hkeeps : Keeps t s o.shared) (hlive : s.Live) (hi : s.GuardedCode t [i])
    (hR : Settled s t x i) :
    o.shared.Live ∧ o.shared.GuardedCode t (o.code []) ∧
      ∀ t' code, t' ≠ t → s.GuardedCode t' code → o.shared.GuardedCode t' code := by
  obtain ⟨hconn, hrequest⟩ := hi i (mem_singleton_self i)
  cases hsteps with
  | claim owner hclaim =>
    rw [owner.shared_resume] at hkeeps ⊢
    obtain ⟨hsame, hq, hnext⟩ := claims_of_claimSteps hclaim
    refine ⟨?_, ?_, fun t' code _ hcode => hsame.guardedCode hcode⟩
    · rcases hnext with hnext | ⟨r, rfl, hticket⟩
      · exact hlive.of_same hsame hkeeps hnext fun conn hc => hq conn (hlive.leases conn hc)
      · -- the new claim belongs to the stream that takes the step, whose guard is in place
        refine ⟨fun conn hc => hq conn (hlive.leases conn (hsame.released ▸ hc)),
          fun id hid conn hc hasked => ?_, ?_⟩
        · rw [hsame.released] at hc
          rw [hticket] at hid
          rcases Nat.lt_or_eq_of_le (Nat.le_of_lt_succ hid) with hlt | rfl
          · rw [hkeeps.asked id hlt] at hasked
            exact hkeeps.served hlt (hlive.claims id hlt conn hc hasked)
          · rw [hticket] at hasked
            simp only [ticket, update_self] at hasked
            have hmine := hrequest r rfl
            rw [hasked] at hmine
            exact absurd hc (hconn conn hmine.symm).live
        · rw [hsame.released, hsame.nextConn]
          exact hlive.known
    · rcases owner.code_resume _ with ⟨j, hj, hcode⟩ | ⟨-, hcode | ⟨w, rfl, hcode | ⟨jobs, hcode⟩⟩⟩
      · rw [hcode]
        apply guardedCode_singleton
        · exact fun conn hc => hsame.guarded (hconn conn hc)
        · rw [request?_eq_none_of_steps hclaim hj owner]
          exact fun r hr => by cases hr
      · rw [hcode]
        exact guardedCode_nil
      all_goals
        rw [hcode]
        exact guardedCode_singleton (fun conn hc => hsame.guarded (hconn conn hc))
          (fun r hr => by cases hr)
  | openConn node max leaseMs =>
    have hfresh : s.nextConn + 1 ∉ s.released := fun hmem => by
      have := hlive.known _ hmem
      omega
    refine ⟨⟨hlive.leases, fun id hid conn hc hasked => ?_, fun conn hc => ?_⟩, ?_,
      fun t' code _ hcode j hj => ⟨fun conn hc => ?_, (hcode j hj).2⟩⟩
    · exact hkeeps.served hid (hlive.claims id hid conn hc hasked)
    · exact Nat.le_succ_of_le (hlive.known conn hc)
    · apply guardedCode_singleton
      · intro conn hc
        cases hc
        exact ⟨hfresh, update_self .., le_refl _⟩
      · exact fun r hr => by cases hr
    · -- the connections of the others are older
      have hg := (hcode j hj).1 conn hc
      refine ⟨hg.live, ?_, Nat.le_succ_of_le hg.known⟩
      have hne : conn ≠ s.nextConn + 1 := by
        have := hg.known
        omega
      exact (update_of_ne hne _ _).trans hg.owner
  | stream w hi hj =>
    have hg : s.Guarded t w.conn := by
      rcases hi with rfl | rfl | rfl | ⟨jobs, rfl⟩
      all_goals exact hconn w.conn rfl
    refine ⟨hlive, ?_, fun _ _ _ hcode => hcode⟩
    apply guardedCode_singleton
    · intro conn hc
      rcases hj with rfl | rfl | ⟨jobs, rfl⟩ | rfl | ⟨max, rfl⟩
      all_goals
        cases hc
        exact hg
    · intro r hr
      rcases hj with rfl | rfl | ⟨jobs, rfl⟩ | rfl | ⟨max, rfl⟩
      · cases hr
      · cases hr
      · cases hr
      · cases hr
      · cases hr
        rfl
  | release conn =>
    have hg := hconn conn rfl
    refine ⟨⟨fun c hc => ?_, fun id hid c hc hasked => ?_, fun c hc => ?_⟩, guardedCode_nil,
      fun t' code ht hcode j hj => ⟨fun c hc => ?_, (hcode j hj).2⟩⟩
    · rcases mem_cons.mp hc with rfl | hc
      · exact QueueProjection.without_releaseConn s.q c
      · exact (hlive.leases c hc).releaseConn conn
    · refine hkeeps.served hid ?_
      rcases mem_cons.mp hc with rfl | hc
      · exact hR c rfl id hid hasked
      · exact hlive.claims id hid c hc hasked
    · rcases mem_cons.mp hc with rfl | hc
      · exact hg.known
      · exact hlive.known c hc
    · have hg' := (hcode j hj).1 c hc
      refine { hg' with live := fun hmem => ?_ }
      rcases mem_cons.mp hmem with rfl | hmem
      · exact ht (hg'.owner.symm.trans hg.owner)
      · exact hg'.live hmem
  | execute k hx htask htodo =>
    have hsame := sameConns_finish s k
    refine ⟨hlive.of_same (hsame ..) hkeeps rfl fun conn hc => ?_, guardedCode_nil,
      fun t' code _ hcode => (hsame ..).guardedCode hcode⟩
    apply (hlive.leases conn hc).runClaimCohort
    intro c hmem hworkConn
    -- a claimer of this task belongs to a claim that is not served yet
    obtain ⟨hclaimers, -, hmembers⟩ := hs.passed k _ htask
    rw [hclaimers] at hmem
    obtain ⟨id, hid, rfl⟩ := mem_map.mp hmem
    obtain ⟨hlt, hplace⟩ := hmembers id hid
    obtain ⟨k', task', hplace', htask', hout⟩ :=
      served_iff.mp (hlive.claims id hlt conn hc hworkConn)
    rw [hplace] at hplace'
    cases hplace'
    rw [htask] at htask'
    cases htask'
    exact hout htodo
  | abort k htask htodo =>
    have hsame := sameConns_finish s k
    exact ⟨hlive.of_same (hsame ..) hkeeps rfl hlive.leases, guardedCode_nil,
      fun t' code _ hcode => (hsame ..).guardedCode hcode⟩
  | other q _ hq =>
    have hsame : SameConns s (s.setQ q) := ⟨rfl, rfl, rfl⟩
    exact ⟨hlive.of_same hsame hkeeps rfl fun conn hc => hq conn (hlive.leases conn hc),
      guardedCode_nil, fun t' code _ hcode => hsame.guardedCode hcode⟩

/-! ## Every run -/

theorem guardedCode_body (s : Coordinator) (t : Nat) (c : CoordCall) : s.GuardedCode t c.body := by
  cases c with
  | claim node max leaseMs =>
    apply guardedCode_singleton
    · nofun
    · intro r hr
      cases hr
      rfl
  | _ => exact guardedCode_singleton nofun nofun

/-- **Disconnects.**  In every run of claims, streams, passes and acks in which each guard is dropped
when the claims of its connection have been served, no lease carries a released connection. -/
theorem disconnect_releases {q : QueueProjection} {as : List (ThreadAction CoordCall Wake)} {s : Threads Coordinator CoordInstr}
    (halong : Along step (Threads.OnInput (fun _ => True) Settled) (start q) as)
    (hrun : exec step (start q) as = some s) :
    ∀ conn ∈ s.shared.released, s.shared.q.Without conn := by
  have hinv : Sound s ∧ Threads.Holds Live GuardedCode s := by
    refine exec_invariant_along step
      (I := fun s => Sound s ∧ Threads.Holds Live GuardedCode s) ?_ ⟨sound_start q, ?_⟩ halong hrun
    · rintro s a s' ⟨hsound, hlive⟩ hR hstep
      refine ⟨hsound.step hstep, ?_⟩
      obtain ⟨t, c, rfl, hcode, rfl⟩ | ⟨t, x, i, o, rfl, hcode, hsteps, rfl⟩ := hsound.steps hstep
      · exact hlive.start (guardedCode_body s.shared t c)
      · have hi := (hsound.code t).2 i (by rw [hcode]; exact mem_singleton_self i)
        obtain ⟨-, hkeeps, -⟩ := seats_of_steps hsteps hsound.shared hi
        have hguarded := hlive.code t
        rw [hcode] at hguarded
        obtain ⟨hlive', hown, hother⟩ := live_of_steps hsteps hsound.shared hkeeps hlive.shared
          hguarded (hR i (by rw [hcode]; rfl))
        exact hlive.run hlive' hown hother
    · refine ⟨⟨fun conn hc => ?_, fun id hid => ?_, fun conn hc => ?_⟩, fun _ => guardedCode_nil⟩
      · cases hc
      · cases hid
      · cases hc
  exact hinv.2.shared.leases

/-! ## Two disconnects -/

/-- A queue with one job, at time 0. -/
def oneJob : PassEnv where
  now := 0
  index := ⟨1, [.plain none], ∅, 0⟩
  head := 1
  maxDeliveries := 0
  deadLetter := false
  leaseMs := 30000
  resolve := fun _ => none

/-- A stream up to the await of its first pass. -/
def awaitPass : List (ThreadAction CoordCall Wake) :=
  [.start 0 (.work "w" 1 none), .run 0 .go, .run 0 .go, .run 0 (.clock 0), .run 0 (.config 0),
    .run 0 .go]

/-- The pool runs the pass. -/
def runPass : List (ThreadAction CoordCall Wake) := [.start 1 (.execute 0), .run 1 (.pass oneJob)]

/-- A stream that is dropped after it has received its job. -/
theorem disconnect_releases_delivered :
    ∃ s, exec step (start (.new 1)) (awaitPass ++ runPass ++
        [.run 0 .go, .run 0 .cancel, .run 0 .go]) = some s ∧
      s.shared.released = [1] ∧ s.shared.q.reclaim = [1] ∧ s.shared.q.Without 1 := by
  obtain ⟨s, hrun, hreleased, hreclaim⟩ : ∃ s, exec step (start (.new 1)) (awaitPass ++ runPass ++
      [.run 0 .go, .run 0 .cancel, .run 0 .go]) = some s ∧ s.shared.released = [1] ∧
        s.shared.q.reclaim = [1] := ⟨_, rfl, rfl, by decide +kernel⟩
  refine ⟨s, hrun, hreleased, hreclaim, ?_⟩
  refine disconnect_releases ?_ hrun 1 ?_
  · decide +kernel
  · rw [hreleased]
    exact mem_singleton_self 1

/-- **A late pass.**  The stream is dropped while it waits for its pass.  The guard releases nothing,
since nothing is leased yet; then the pass leases the job to the connection that is gone. -/
theorem lease_after_disconnect :
    ∃ s, exec step (start (.new 1)) (awaitPass ++ [.run 0 .cancel, .run 0 .go] ++ runPass) = some s ∧
      s.shared.released = [1] ∧ s.shared.nextTask = 1 ∧
      ((s.shared.tasks 0).bind PoolTask.outcome).isSome = true ∧
      (s.shared.q.leases[1]?).map Lease.byWorkConn = some (some 1) :=
  ⟨_, rfl, rfl, rfl, rfl, by decide +kernel⟩

end Coordinator

end Topics
