import Topics.Lib.Threads
import Topics.QueueCalls

/-!
# The claim coordinator

Claims on one queue, as the HTTP layer runs them (`http/queue.rs`).  With a coalescing window a claim
joins the cohort that is forming; the first to join is its leader, sleeps the window, drains the
cohort, runs one pass for all of it on the blocking pool, and sends every member its slice.  Without a
window a claim runs a pass of its own.  A `/work` stream claims what it is short of, round after round.

Every call is a future.  Its steps are the sections between two suspension points or lock sections,
and at a suspension point it may be dropped (`Wake.cancel`): a claim then leaves behind whatever it has
put into shared memory, and a stream releases the leases of its connection.
-/

namespace Topics

open Lib Function Option List Std.TreeMap

/-! ## Data -/

/-- `LeasedJob`: a job as a claimer receives it. -/
structure LeasedJob where
  seq : Nat
  leaseId : Nat
  deadline : Int
  ts : Int
  tag : Option String
  deliveries : Nat
  data : Value
  «meta» : Option Value

structure ClaimRequest where
  node : String
  max : Nat
  leaseMs : Option Nat
  workConn : Option Nat
  deriving DecidableEq

/-- The claimer that `run_claim` makes of a request. -/
def ClaimRequest.claimer (r : ClaimRequest) : Claimer :=
  ⟨r.node, Nat.max 1 (min r.max maxClaim), r.workConn⟩

/-- `PendingClaimer`; `reply` is the oneshot channel. -/
structure PendingClaimer where
  claimer : Claimer
  reply : Nat
  deriving DecidableEq

structure FormingCohort where
  claimers : List PendingClaimer := []
  closed : Bool := false
  /-- History: the thread that has to drain the cohort. -/
  leader : Option Nat := none

/-- What the receiver of a oneshot channel finds. -/
inductive Reply where
  | waiting
  | sent (jobs : List LeasedJob)
  /-- The sender was dropped. -/
  | dropped

/-- A pass that went through: what it read, the locals of its loop, and the slices. -/
structure ServedPass where
  now : Int
  topicLeaseMs : Nat
  pass : ClaimPass
  results : List (List LeasedJob)

/-- A pass on the blocking pool.  `outcome` is there once it has run, without a pass if it failed. -/
structure PoolTask where
  claimers : List Claimer
  leaseMs : Option Nat
  /-- History: the claims it serves. -/
  members : List Nat
  outcome : Option (Option ServedPass) := none

/-- History: where a claim is. -/
inductive ClaimPlace where
  | calling
  | gathered (cohort : Nat)
  | drained (thread : Nat)
  | passed (task : Nat)
  deriving DecidableEq

/-- The coordinator for one queue name, the queue's projection, and the blocking pool. -/
structure Coordinator where
  /-- The entry of the `forming` map. -/
  forming : Option Nat
  cohorts : Nat → FormingCohort
  nextCohort : Nat
  replies : Nat → Reply
  nextReply : Nat
  nextConn : Nat
  tasks : Nat → Option PoolTask
  nextTask : Nat
  q : QueueProjection
  /-- History: what a claim asked for, its thread, and where it is. -/
  asked : Nat → ClaimRequest
  caller : Nat → Nat
  place : Nat → ClaimPlace
  /-- History: the claims that have returned. -/
  returned : List (Nat × Option (List LeasedJob))
  /-- History: the connections whose guard has been dropped, and the threads of the streams. -/
  released : List Nat
  stream : Nat → Nat

structure PassEnv where
  now : Int
  index : TopicIndex
  head : Nat
  maxDeliveries : Nat
  deadLetter : Bool
  leaseMs : Nat
  /-- The payload of a sealed job, if its segment can be read. -/
  resolve : Nat → Option (Value × Option Value)

inductive Wake where
  | go
  /-- The future is dropped. -/
  | cancel
  /-- The operation in the step fails. -/
  | fail
  | config (jitterMs : Nat)
  | clock (now : Int)
  | pass (env : PassEnv)

/-! ## The pass -/

/-- The lease a pass gives: the requested one or the default of the topic, clamped. -/
def effectiveLease (topicLeaseMs : Nat) (leaseMs : Option Nat) : Nat :=
  max minLeaseMs (min (leaseMs.getD topicLeaseMs) maxLeaseMs)

/-- `now.saturating_add(effective_lease)`. -/
def leaseDeadline (now : Int) (topicLeaseMs : Nat) (leaseMs : Option Nat) : Int :=
  min (2 ^ 63 - 1) (now + effectiveLease topicLeaseMs leaseMs)

namespace PassEnv

/-- The section of `run_claim_cohort` under the lock of the projection. -/
def run (env : PassEnv) (q : QueueProjection) (claimers : List Claimer) (leaseMs : Option Nat) :
    ClaimPass :=
  runClaimCohort q env.index env.head claimers
    ⟨env.maxDeliveries, env.deadLetter, leaseDeadline env.now env.leaseMs leaseMs⟩ env.now

/-- The job of a lease event.  A sealed job gets its payload from the segment. -/
def job (env : PassEnv) (deadline : Int) (e : Nat × Nat × Nat × Nat) : LeasedJob :=
  match env.index.get e.2.1 with
  | some r =>
    let payload :=
      if r.payloadResident then (r.data, r.meta) else (env.resolve e.2.1).getD (r.data, r.meta)
    ⟨e.2.1, e.2.2.1, deadline, r.ts, r.tag, e.2.2.2, payload.1, payload.2⟩
  | none => ⟨e.2.1, e.2.2.1, deadline, env.now, none, e.2.2.2, .null, none⟩

def slices (env : PassEnv) (leaseMs : Option Nat) (claimers : List Claimer) (pass : ClaimPass) :
    List (List LeasedJob) :=
  (List.range claimers.length).map fun i =>
    (pass.leased.filter fun e => e.1 = i).map
      (env.job (leaseDeadline env.now env.leaseMs leaseMs))

/-- A pass for `claimers`. -/
def serve (env : PassEnv) (q : QueueProjection) (claimers : List Claimer) (leaseMs : Option Nat) :
    ServedPass :=
  let pass := env.run q claimers leaseMs
  ⟨env.now, env.leaseMs, pass, env.slices leaseMs claimers pass⟩

end PassEnv

/-! ## What the steps do to the shared state -/

namespace Coordinator

/-- A new claim of thread `t`, with a oneshot channel. -/
def ticket (s : Coordinator) (t : Nat) (r : ClaimRequest) : Coordinator :=
  { s with
    nextReply := s.nextReply + 1
    asked := update s.asked s.nextReply r
    caller := update s.caller s.nextReply t
    place := update s.place s.nextReply .calling }

/-- `or_insert_with` on an absent entry. -/
def openCohort (s : Coordinator) : Coordinator :=
  { s with forming := some s.nextCohort, nextCohort := s.nextCohort + 1 }

def gather (s : Coordinator) (t h : Nat) (p : PendingClaimer) : Coordinator :=
  let cohort := s.cohorts h
  { s with
    cohorts := update s.cohorts h
      { cohort with
        claimers := cohort.claimers ++ [p]
        leader := if cohort.claimers.isEmpty then some t else cohort.leader }
    place := update s.place p.reply (.gathered h) }

/-- The places of the claims `ids`. -/
def setPlace (s : Coordinator) (ids : List Nat) (place : ClaimPlace) : Nat → ClaimPlace :=
  fun id => if id ∈ ids then place else s.place id

def close (s : Coordinator) (t h : Nat) : Coordinator :=
  { s with
    cohorts := update s.cohorts h { claimers := [], closed := true, leader := none }
    place := s.setPlace ((s.cohorts h).claimers.map PendingClaimer.reply) (.drained t) }

/-- `remove_if(ptr_eq)`. -/
def unform (s : Coordinator) (h : Nat) : Coordinator :=
  if s.forming = some h then { s with forming := none } else s

/-- `spawn_blocking`. -/
def submit (s : Coordinator) (claimers : List Claimer) (leaseMs : Option Nat) (members : List Nat) :
    Coordinator :=
  { s with
    tasks := update s.tasks s.nextTask
      (some { claimers := claimers, leaseMs := leaseMs, members := members })
    nextTask := s.nextTask + 1
    place := s.setPlace members (.passed s.nextTask) }

def finish (s : Coordinator) (k : Nat) (task : PoolTask) (q : QueueProjection)
    (outcome : Option ServedPass) : Coordinator :=
  { s with
    tasks := update s.tasks k (some { task with outcome := some outcome })
    q := q }

def answer (s : Coordinator) (reply : Nat) (jobs : List LeasedJob) : Coordinator :=
  { s with replies := update s.replies reply (.sent jobs) }

/-- Drop the senders `ids`. -/
def dropReplies (s : Coordinator) (ids : List Nat) : Coordinator :=
  { s with replies := fun id => if id ∈ ids then .dropped else s.replies id }

def giveBack (s : Coordinator) (id : Nat) (result : Option (List LeasedJob)) : Coordinator :=
  { s with returned := s.returned ++ [(id, result)] }

def setQ (s : Coordinator) (q : QueueProjection) : Coordinator := { s with q := q }

def allocConn (s : Coordinator) (t : Nat) : Coordinator :=
  { s with nextConn := s.nextConn + 1, stream := update s.stream (s.nextConn + 1) t }

/-- `release_work_conn`, in the destructor of the guard. -/
def releaseConn (s : Coordinator) (conn : Nat) : Coordinator :=
  { s with q := (s.q.releaseConn conn).1, released := conn :: s.released }

/-- `work_conn_in_flight`. -/
def inFlight (s : Coordinator) (conn : Nat) (now : Int) : Nat :=
  ((s.q.connLeases conn).filter fun e => now ≤ e.2.deadlineMs).length

end Coordinator

/-! ## The steps of a claim -/

structure Coalesced where
  claimer : Claimer
  leaseMs : Option Nat
  reply : Nat
  deriving DecidableEq

/-- Where a `run_claim` is. -/
inductive ClaimInstr where
  | enter (r : ClaimRequest)
  /-- Without a window: a pass for this claim alone. -/
  | greedy (c : Coalesced)
  | direct (c : Coalesced) (task : Nat)
  /-- The head of the join loop. -/
  | lookup (c : Coalesced)
  | join (c : Coalesced) (cohort : Nat)
  | forget (c : Coalesced) (cohort : Nat)
  /-- The leader sleeps. -/
  | window (c : Coalesced) (cohort : Nat)
  | drain (c : Coalesced) (cohort : Nat)
  | remove (c : Coalesced) (cohort : Nat) (drained : List PendingClaimer)
  | spawn (c : Coalesced) (drained : List PendingClaimer)
  | running (c : Coalesced) (task : Nat) (drained : List PendingClaimer)
  | send (c : Coalesced) (todo : List (Nat × List LeasedJob)) (failed : Bool)
  | recv (c : Coalesced)
  /-- The `topic_state` behind the reply. -/
  | ready (c : Coalesced) (jobs : List LeasedJob)

inductive ClaimStep where
  | go (s : Coordinator) (i : ClaimInstr)
  | done (s : Coordinator) (result : Option (List LeasedJob))
  | dropped (s : Coordinator)

/-- The slices, paired with the channels of the drained claimers. -/
def fanOut (drained : List PendingClaimer) (results : List (List LeasedJob)) :
    List (Nat × List LeasedJob) :=
  drained.zipIdx.map fun p => (p.1.reply, results[p.2]?.getD [])

/-- One step of `run_claim` in thread `t`. -/
def ClaimInstr.sem (s : Coordinator) (t : Nat) : Wake → ClaimInstr → Option ClaimStep
  | .fail, .enter _ => some (.done s none)
  | .config jitterMs, .enter r =>
    if r.node = "" ∨ maxNodeBytes < r.node.utf8ByteSize then some (.done s none)
    else
      let c : Coalesced := ⟨r.claimer, r.leaseMs, s.nextReply⟩
      some (.go (s.ticket t r) (if jitterMs = 0 then .greedy c else .lookup c))
  | .go, .greedy c =>
    some (.go (s.submit [c.claimer] c.leaseMs [c.reply]) (.direct c s.nextTask))
  | .go, .direct c k =>
    match (s.tasks k).bind PoolTask.outcome with
    | some outcome =>
      let jobs := outcome.map fun p => p.results.getLast?.getD []
      some (.done (s.giveBack c.reply jobs) jobs)
    | none => none
  | .cancel, .direct _ _ => some (.dropped s)
  | .go, .lookup c =>
    match s.forming with
    | some h => some (.go s (.join c h))
    | none => some (.go s.openCohort (.join c s.nextCohort))
  | .go, .join c h =>
    if (s.cohorts h).closed then some (.go s (.forget c h))
    else
      some (.go (s.gather t h ⟨c.claimer, c.reply⟩)
        (if (s.cohorts h).claimers.isEmpty then .window c h else .recv c))
  | .go, .forget c h => some (.go (s.unform h) (.lookup c))
  | .go, .window c h => some (.go s (.drain c h))
  | .cancel, .window _ _ => some (.dropped s)
  | .go, .drain c h => some (.go (s.close t h) (.remove c h (s.cohorts h).claimers))
  | .go, .remove c h drained => some (.go (s.unform h) (.spawn c drained))
  | .go, .spawn c drained =>
    some (.go
      (s.submit (drained.map PendingClaimer.claimer) c.leaseMs (drained.map PendingClaimer.reply))
      (.running c s.nextTask drained))
  | .go, .running c k drained =>
    match (s.tasks k).bind PoolTask.outcome with
    | some (some p) => some (.go s (.send c (fanOut drained p.results) false))
    -- a failed pass: every joiner gets nothing, and the leader the error
    | some none => some (.go s (.send c (fanOut drained []) true))
    | none => none
  | .cancel, .running _ _ drained =>
    some (.dropped (s.dropReplies (drained.map PendingClaimer.reply)))
  | .go, .send c [] failed =>
    some (if failed then .done (s.giveBack c.reply none) none else .go s (.recv c))
  | .go, .send c ((reply, jobs) :: todo) failed =>
    some (.go (s.answer reply jobs) (.send c todo failed))
  | .go, .recv c =>
    match s.replies c.reply with
    | .waiting => none
    | .sent jobs => some (.go s (.ready c jobs))
    | .dropped => some (.go s (.ready c []))
  | .cancel, .recv _ => some (.dropped s)
  | .clock now, .ready c jobs =>
    some (.done ((s.setQ (s.q.sweepExpired now)).giveBack c.reply (some jobs)) (some jobs))
  | .fail, .ready c _ => some (.done (s.giveBack c.reply none) none)
  | _, _ => none

/-! ## All steps -/

/-- A `/work` connection. -/
structure WorkStream where
  node : String
  max : Nat
  leaseMs : Option Nat
  conn : Nat

/-- Who runs a claim: a `POST` handler, or a stream. -/
inductive ClaimOwner where
  | post
  | work (w : WorkStream)

inductive CoordInstr where
  | claim (owner : ClaimOwner) (i : ClaimInstr)
  /-- `GET /work`, once its parameters are checked. -/
  | open (node : String) (max : Nat) (leaseMs : Option Nat)
  /-- The stream yields its `retry` event. -/
  | opened (w : WorkStream)
  /-- The head of the loop. -/
  | top (w : WorkStream)
  | deliver (w : WorkStream) (jobs : List LeasedJob)
  | park (w : WorkStream)
  /-- `WorkConnGuard::drop`. -/
  | release (conn : Nat)
  /-- A thread of the pool runs a task. -/
  | execute (task : Nat)
  | ack (node : String) (seqs : List Nat) (leaseIds : List (Option Nat)) (now : Int)
  | nack (node : String) (seqs : List Nat) (leaseIds : List (Option Nat)) (delayMs : Nat) (now : Int)
  | extend (node : String) (seqs : List Nat) (leaseIds : List (Option Nat)) (leaseMs : Nat)
      (now : Int)
  | sweep (now : Int)
  /-- What a failed delete pushes back. -/
  | reclaim (seqs : List Nat)

inductive CoordCall where
  | claim (node : String) (max : Nat) (leaseMs : Option Nat)
  | work (node : String) (max : Nat) (leaseMs : Option Nat)
  | execute (task : Nat)
  | ack (node : String) (seqs : List Nat) (leaseIds : List (Option Nat)) (now : Int)
  | nack (node : String) (seqs : List Nat) (leaseIds : List (Option Nat)) (delayMs : Nat) (now : Int)
  | extend (node : String) (seqs : List Nat) (leaseIds : List (Option Nat)) (leaseMs : Nat)
      (now : Int)
  | sweep (now : Int)
  | reclaim (seqs : List Nat)

def CoordCall.body : CoordCall → List CoordInstr
  | .claim node max leaseMs => [.claim .post (.enter ⟨node, max, leaseMs, none⟩)]
  | .work node max leaseMs => [.open node max leaseMs]
  | .execute task => [.execute task]
  | .ack node seqs leaseIds now => [.ack node seqs leaseIds now]
  | .nack node seqs leaseIds delayMs now => [.nack node seqs leaseIds delayMs now]
  | .extend node seqs leaseIds leaseMs now => [.extend node seqs leaseIds leaseMs now]
  | .sweep now => [.sweep now]
  | .reclaim seqs => [.reclaim seqs]

def ClaimOwner.resume (owner : ClaimOwner) : ClaimStep → Outcome Coordinator CoordInstr
  | .go s i => .next s [.claim owner i]
  | .done s result =>
    match owner, result with
    | .post, _ => .stop s
    | .work w, some jobs => .next s [.deliver w jobs]
    | .work w, none => .next s [.release w.conn]
  | .dropped s =>
    match owner with
    | .post => .stop s
    | .work w => .next s [.release w.conn]

namespace Coordinator

/-- One step of thread `t`. -/
def sem (s : Coordinator) (t : Nat) (x : Wake) : CoordInstr → Option (Outcome Coordinator CoordInstr)
  | .claim owner i => (ClaimInstr.sem s t x i).map owner.resume
  | .open node max leaseMs =>
    some (.next (s.allocConn t) [.opened ⟨node, max, leaseMs, s.nextConn + 1⟩])
  | .opened w =>
    match x with
    | .go => some (.next s [.top w])
    | .cancel => some (.next s [.release w.conn])
    | _ => none
  | .top w =>
    match x with
    | .clock now =>
      -- claim what the connection is short of
      some (.next s
        [if 0 < w.max - s.inFlight w.conn now then
          .claim (.work w) (.enter ⟨w.node, w.max - s.inFlight w.conn now, w.leaseMs, some w.conn⟩)
        else .park w])
    -- the server shuts down
    | .fail => some (.next s [.release w.conn])
    | _ => none
  | .deliver w jobs =>
    match x with
    | .go =>
      match jobs with
      | [] => some (.next s [.park w])
      | _ :: jobs => some (.next s [.deliver w jobs])
    | .cancel => some (.next s [.release w.conn])
    | _ => none
  | .park w =>
    match x with
    | .go => some (.next s [.top w])
    | .fail | .cancel => some (.next s [.release w.conn])
    | _ => none
  | .release conn => some (.stop (s.releaseConn conn))
  | .execute k =>
    match s.tasks k with
    | some task =>
      match task.outcome, x with
      | none, .pass env =>
        let served := env.serve s.q task.claimers task.leaseMs
        some (.stop (s.finish k task served.pass.q (some served)))
      | none, .fail => some (.stop (s.finish k task s.q none))
      | _, _ => none
    | none => none
  | .ack node seqs leaseIds now =>
    if QueueProjection.fencedRefuses node seqs leaseIds then some (.stop s)
    else some (.stop (s.setQ (s.q.ackLeases node seqs leaseIds now).1))
  | .nack node seqs leaseIds delayMs now =>
    if QueueProjection.fencedRefuses node seqs leaseIds then some (.stop s)
    else some (.stop (s.setQ (s.q.nackLeases node seqs leaseIds delayMs now).1))
  | .extend node seqs leaseIds leaseMs now =>
    if QueueProjection.fencedRefuses node seqs leaseIds then some (.stop s)
    else some (.stop (s.setQ (s.q.extendLeases node seqs leaseIds leaseMs now).1))
  | .sweep now => some (.stop (s.setQ (s.q.sweepExpired now)))
  | .reclaim seqs => some (.stop (s.setQ (seqs.foldl QueueProjection.pushReclaim s.q)))

abbrev step := Threads.step CoordCall.body sem

/-- A coordinator that nobody has called yet, on a queue in any state that no connection has leases
in. -/
def start (q : QueueProjection) : Threads Coordinator CoordInstr :=
  ⟨{ forming := none
     cohorts := fun _ => {}
     nextCohort := 0
     replies := fun _ => .waiting
     nextReply := 0
     nextConn := 0
     tasks := fun _ => none
     nextTask := 0
     q := q
     asked := fun _ => ⟨"", 0, none, none⟩
     caller := fun _ => 0
     place := fun _ => .calling
     returned := []
     released := []
     stream := fun _ => 0 }, fun _ => []⟩

end Coordinator

/-! ## The steps, case by case -/

/-- The steps of a claim, one case for every branch. -/
inductive ClaimInstr.Steps (s : Coordinator) (t : Nat) : Wake → ClaimInstr → ClaimStep → Prop where
  | missing (r : ClaimRequest) : Steps s t .fail (.enter r) (.done s none)
  | invalid (j : Nat) (r : ClaimRequest) : Steps s t (.config j) (.enter r) (.done s none)
  | alone (r : ClaimRequest) :
      Steps s t (.config 0) (.enter r)
        (.go (s.ticket t r) (.greedy ⟨r.claimer, r.leaseMs, s.nextReply⟩))
  | call (j : Nat) (r : ClaimRequest) :
      Steps s t (.config (j + 1)) (.enter r)
        (.go (s.ticket t r) (.lookup ⟨r.claimer, r.leaseMs, s.nextReply⟩))
  | submit (c : Coalesced) :
      Steps s t .go (.greedy c)
        (.go (s.submit [c.claimer] c.leaseMs [c.reply]) (.direct c s.nextTask))
  | collect (c : Coalesced) (k : Nat) {task : PoolTask} {outcome : Option ServedPass}
      (htask : s.tasks k = some task) (hdone : task.outcome = some outcome) :
      Steps s t .go (.direct c k)
        (.done (s.giveBack c.reply (outcome.map fun p => p.results.getLast?.getD []))
          (outcome.map fun p => p.results.getLast?.getD []))
  | dropDirect (c : Coalesced) (k : Nat) : Steps s t .cancel (.direct c k) (.dropped s)
  | find (c : Coalesced) {h : Nat} (hforming : s.forming = some h) :
      Steps s t .go (.lookup c) (.go s (.join c h))
  | insert (c : Coalesced) (hforming : s.forming = none) :
      Steps s t .go (.lookup c) (.go s.openCohort (.join c s.nextCohort))
  | late (c : Coalesced) (h : Nat) (hclosed : (s.cohorts h).closed = true) :
      Steps s t .go (.join c h) (.go s (.forget c h))
  | lead (c : Coalesced) (h : Nat) (hopen : (s.cohorts h).closed = false)
      (hempty : (s.cohorts h).claimers = []) :
      Steps s t .go (.join c h) (.go (s.gather t h ⟨c.claimer, c.reply⟩) (.window c h))
  | follow (c : Coalesced) (h : Nat) (hopen : (s.cohorts h).closed = false)
      (hsome : (s.cohorts h).claimers ≠ []) :
      Steps s t .go (.join c h) (.go (s.gather t h ⟨c.claimer, c.reply⟩) (.recv c))
  | retry (c : Coalesced) (h : Nat) : Steps s t .go (.forget c h) (.go (s.unform h) (.lookup c))
  | wake (c : Coalesced) (h : Nat) : Steps s t .go (.window c h) (.go s (.drain c h))
  | dropWindow (c : Coalesced) (h : Nat) : Steps s t .cancel (.window c h) (.dropped s)
  | drain (c : Coalesced) (h : Nat) :
      Steps s t .go (.drain c h) (.go (s.close t h) (.remove c h (s.cohorts h).claimers))
  | remove (c : Coalesced) (h : Nat) (drained : List PendingClaimer) :
      Steps s t .go (.remove c h drained) (.go (s.unform h) (.spawn c drained))
  | spawn (c : Coalesced) (drained : List PendingClaimer) :
      Steps s t .go (.spawn c drained)
        (.go
          (s.submit (drained.map PendingClaimer.claimer) c.leaseMs
            (drained.map PendingClaimer.reply))
          (.running c s.nextTask drained))
  | served (c : Coalesced) (k : Nat) (drained : List PendingClaimer) {task : PoolTask}
      {p : ServedPass} (htask : s.tasks k = some task) (hdone : task.outcome = some (some p)) :
      Steps s t .go (.running c k drained) (.go s (.send c (fanOut drained p.results) false))
  | refused (c : Coalesced) (k : Nat) (drained : List PendingClaimer) {task : PoolTask}
      (htask : s.tasks k = some task) (hdone : task.outcome = some none) :
      Steps s t .go (.running c k drained) (.go s (.send c (fanOut drained []) true))
  | dropRunning (c : Coalesced) (k : Nat) (drained : List PendingClaimer) :
      Steps s t .cancel (.running c k drained)
        (.dropped (s.dropReplies (drained.map PendingClaimer.reply)))
  | error (c : Coalesced) : Steps s t .go (.send c [] true) (.done (s.giveBack c.reply none) none)
  | sent (c : Coalesced) : Steps s t .go (.send c [] false) (.go s (.recv c))
  | answer (c : Coalesced) (reply : Nat) (jobs : List LeasedJob)
      (todo : List (Nat × List LeasedJob)) (failed : Bool) :
      Steps s t .go (.send c ((reply, jobs) :: todo) failed)
        (.go (s.answer reply jobs) (.send c todo failed))
  | receive (c : Coalesced) {jobs : List LeasedJob} (hreply : s.replies c.reply = .sent jobs) :
      Steps s t .go (.recv c) (.go s (.ready c jobs))
  | lost (c : Coalesced) (hreply : s.replies c.reply = .dropped) :
      Steps s t .go (.recv c) (.go s (.ready c []))
  | dropRecv (c : Coalesced) : Steps s t .cancel (.recv c) (.dropped s)
  | finish (c : Coalesced) (jobs : List LeasedJob) (now : Int) :
      Steps s t (.clock now) (.ready c jobs)
        (.done ((s.setQ (s.q.sweepExpired now)).giveBack c.reply (some jobs)) (some jobs))
  | unstated (c : Coalesced) (jobs : List LeasedJob) :
      Steps s t .fail (.ready c jobs) (.done (s.giveBack c.reply none) none)

theorem ClaimInstr.steps_of_sem {s : Coordinator} {t : Nat} {x : Wake} {i : ClaimInstr}
    {o : ClaimStep} (h : ClaimInstr.sem s t x i = some o) : ClaimInstr.Steps s t x i o := by
  unfold ClaimInstr.sem at h
  split at h
  · cases h
    exact .missing _
  · rename_i jitterMs r
    split at h
    · cases h
      exact .invalid _ _
    · cases h
      cases jitterMs with
      | zero => exact .alone r
      | succ j => exact .call j r
  · cases h
    exact .submit _
  · rename_i c k
    split at h
    · rename_i outcome hout
      obtain ⟨task, htask, hdone⟩ := bind_eq_some_iff.mp hout
      cases h
      exact .collect c k htask hdone
    · cases h
  · cases h
    exact .dropDirect _ _
  · split at h
    · rename_i hf
      cases h
      exact .find _ hf
    · rename_i hf
      cases h
      exact .insert _ hf
  · rename_i c k
    split at h
    · rename_i hclosed
      cases h
      exact .late c k hclosed
    · rename_i hopen
      cases h
      by_cases hempty : (s.cohorts k).claimers = []
      · simp only [hempty, isEmpty_nil, if_true]
        exact .lead c k (by simpa using hopen) hempty
      · have hne : (s.cohorts k).claimers.isEmpty = false := by simpa using hempty
        simp only [hne]
        exact .follow c k (by simpa using hopen) hempty
  · cases h
    exact .retry _ _
  · cases h
    exact .wake _ _
  · cases h
    exact .dropWindow _ _
  · cases h
    exact .drain _ _
  · cases h
    exact .remove _ _ _
  · cases h
    exact .spawn _ _
  · rename_i c k drained
    split at h
    · rename_i p hout
      obtain ⟨task, htask, hdone⟩ := bind_eq_some_iff.mp hout
      cases h
      exact .served c k drained htask hdone
    · rename_i hout
      obtain ⟨task, htask, hdone⟩ := bind_eq_some_iff.mp hout
      cases h
      exact .refused c k drained htask hdone
    · cases h
  · cases h
    exact .dropRunning _ _ _
  · rename_i c failed
    cases h
    cases failed with
    | true => exact .error c
    | false => exact .sent c
  · cases h
    exact .answer _ _ _ _ _
  · rename_i c
    split at h
    · cases h
    · rename_i jobs hreply
      cases h
      exact .receive c hreply
    · rename_i hreply
      cases h
      exact .lost c hreply
  · cases h
    exact .dropRecv _
  · cases h
    exact .finish _ _ _
  · cases h
    exact .unstated _ _
  · cases h

/-! ### The leases of a connection -/

namespace QueueProjection

def Without (q : QueueProjection) (conn : Nat) : Prop :=
  ∀ (seq : Nat) (l : Lease), q.leases[seq]? = some l → l.byWorkConn ≠ some conn

variable {q : QueueProjection} {conn : Nat}

section

variable (h : q.Without conn)

include h

theorem Without.sweepExpired (now : Int) : (q.sweepExpired now).Without conn :=
  fun seq l hl => h seq l (leases_of_sweepExpired hl)

theorem Without.erase {q' : QueueProjection} {x : Nat} (hq : q'.leases = q.leases.erase x) :
    q'.Without conn := by
  intro seq l hl
  rw [hq, getElem?_erase] at hl
  split at hl
  · cases hl
  · exact h seq l hl

theorem Without.heldLoop {node : String} {leaseIds : List (Option Nat)}
    {act : QueueProjection → Nat → Lease → QueueProjection}
    (hact : ∀ q seq l, q.Without conn → q.leases[seq]? = some l → (act q seq l).Without conn)
    (seqs : List (Nat × Nat)) : (heldLoop node leaseIds act seqs (q, [])).1.Without conn :=
  heldLoop_induct (P := fun q _ => q.Without conn)
    (fun q _ seq l hl _ hq => hact q seq l hq hl) seqs h

theorem Without.ackLeases (node : String) (seqs : List Nat) (leaseIds : List (Option Nat))
    (now : Int) : (q.ackLeases node seqs leaseIds now).1.Without conn := by
  unfold QueueProjection.ackLeases
  rw [ackLoop_eq_heldLoop]
  exact (h.sweepExpired now).heldLoop (fun q seq l hq _ => hq.erase (x := seq) rfl) _

theorem Without.nackLeases (node : String) (seqs : List Nat) (leaseIds : List (Option Nat))
    (delayMs : Nat) (now : Int) : (q.nackLeases node seqs leaseIds delayMs now).1.Without conn := by
  apply (h.sweepExpired now).heldLoop
  intro q seq l hq _
  apply hq.erase (x := seq)
  unfold nackOne
  simp only
  split
  · rfl
  · exact pushReclaim_leases _ seq

theorem Without.extendLeases (node : String) (seqs : List Nat) (leaseIds : List (Option Nat))
    (leaseMs : Nat) (now : Int) :
    (q.extendLeases node seqs leaseIds leaseMs now).1.Without conn := by
  apply (h.sweepExpired now).heldLoop
  intro q seq l hq hl seq' l' hl'
  simp only [extendOne, Std.TreeMap.getElem?_insert] at hl'
  split at hl'
  · cases hl'
    exact hq seq l hl
  · exact hq seq' l' hl'

theorem Without.reclaim (seqs : List Nat) : (seqs.foldl pushReclaim q).Without conn := by
  induction seqs generalizing q with
  | nil => exact h
  | cons seq seqs ih =>
    apply ih
    intro x l hl
    rw [pushReclaim_leases] at hl
    exact h x l hl

end

theorem without_releaseConn (q : QueueProjection) (conn : Nat) :
    (q.releaseConn conn).1.Without conn := by
  intro seq l hl hconn
  rw [releaseConn_eq_foldl, (foldl_dropLease_fields _ q).2.2 seq] at hl
  split at hl
  · cases hl
  · rename_i hmem
    apply hmem
    refine mem_map.mpr ⟨(seq, l), mem_filter.mpr ⟨?_, by simpa using hconn⟩, rfl⟩
    exact mem_toList_iff_getElem?_eq_some.mpr hl

theorem Without.releaseConn (h : q.Without conn) (other : Nat) :
    (q.releaseConn other).1.Without conn := by
  intro seq l hl
  rw [releaseConn_eq_foldl, (foldl_dropLease_fields _ q).2.2 seq] at hl
  split at hl
  · cases hl
  · exact h seq l hl

theorem Without.runClaimCohort (h : q.Without conn) {claimers : List Claimer}
    (hclaimers : ∀ c ∈ claimers, c.workConn ≠ some conn) (ix : TopicIndex) (head : Nat)
    (terms : ClaimTerms) (now : Int) :
    (runClaimCohort q ix head claimers terms now).q.Without conn := by
  apply ClaimPass.claimLoop_induct (P := fun st => st.q.Without conn)
  · exact fun st rr hst => hst
  · intro st q' rr hst hnext
    obtain ⟨_, _, rfl⟩ := nextClaimable_eq hnext
    exact hst
  · intro st q' rr seq hst hnext _
    obtain ⟨_, _, rfl⟩ := nextClaimable_eq hnext
    exact hst
  · intro st q' rr seq hst hnext _ x l hl
    obtain ⟨_, _, rfl⟩ := nextClaimable_eq hnext
    simp only [ClaimPass.lease, Std.TreeMap.getElem?_insert] at hl
    split at hl
    · cases hl
      cases hc : claimers[rr]? with
      | none => simp
      | some c => exact hclaimers c (mem_of_getElem? hc)
    · exact hst x l hl
  · exact h.sweepExpired now

end QueueProjection

/-- All steps.  `other` are the calls that only touch the projection. -/
inductive Coordinator.Steps (s : Coordinator) (t : Nat) (x : Wake) :
    CoordInstr → Outcome Coordinator CoordInstr → Prop where
  | claim (owner : ClaimOwner) {i : ClaimInstr} {o : ClaimStep}
      (hsteps : ClaimInstr.Steps s t x i o) : Steps s t x (.claim owner i) (owner.resume o)
  | openConn (node : String) (max : Nat) (leaseMs : Option Nat) :
      Steps s t x (.open node max leaseMs)
        (.next (s.allocConn t) [.opened ⟨node, max, leaseMs, s.nextConn + 1⟩])
  /-- A stream goes on to another of its own steps. -/
  | stream {i j : CoordInstr} (w : WorkStream)
      (hi : i = .opened w ∨ i = .top w ∨ i = .park w ∨ ∃ jobs, i = .deliver w jobs)
      (hj : j = .top w ∨ j = .park w ∨ (∃ jobs, j = .deliver w jobs) ∨ j = .release w.conn ∨
        ∃ max, j = .claim (.work w) (.enter ⟨w.node, max, w.leaseMs, some w.conn⟩)) :
      Steps s t x i (.next s [j])
  | release (conn : Nat) : Steps s t x (.release conn) (.stop (s.releaseConn conn))
  | execute (k : Nat) {task : PoolTask} {env : PassEnv} (hx : x = .pass env)
      (htask : s.tasks k = some task) (htodo : task.outcome = none) :
      Steps s t x (.execute k)
        (.stop (s.finish k task (env.serve s.q task.claimers task.leaseMs).pass.q
          (some (env.serve s.q task.claimers task.leaseMs))))
  | abort (k : Nat) {task : PoolTask} (htask : s.tasks k = some task)
      (htodo : task.outcome = none) :
      Steps s t x (.execute k) (.stop (s.finish k task s.q none))
  | other {i : CoordInstr} (q : QueueProjection) (hi : ∀ owner j, i ≠ .claim owner j)
      (hq : ∀ conn, s.q.Without conn → q.Without conn) : Steps s t x i (.stop (s.setQ q))

theorem Coordinator.steps_of_sem {s : Coordinator} {t : Nat} {x : Wake} {i : CoordInstr}
    {o : Outcome Coordinator CoordInstr} (h : sem s t x i = some o) : Steps s t x i o := by
  cases i with
  | claim owner i =>
    obtain ⟨o', ho', rfl⟩ := map_eq_some_iff.mp h
    exact .claim owner (ClaimInstr.steps_of_sem ho')
  | «open» node max leaseMs =>
    cases h
    exact .openConn node max leaseMs
  | opened w =>
    cases x with
    | go =>
      cases h
      exact .stream w (.inl rfl) (.inl rfl)
    | cancel =>
      cases h
      exact .stream w (.inl rfl) (.inr (.inr (.inr (.inl rfl))))
    | _ => cases h
  | top w =>
    cases x with
    | clock now =>
      cases h
      apply Steps.stream w (.inr (.inl rfl))
      split
      · exact .inr (.inr (.inr (.inr ⟨_, rfl⟩)))
      · exact .inr (.inl rfl)
    | fail =>
      cases h
      exact .stream w (.inr (.inl rfl)) (.inr (.inr (.inr (.inl rfl))))
    | _ => cases h
  | deliver w jobs =>
    cases x with
    | go =>
      cases jobs with
      | nil =>
        cases h
        exact .stream w (.inr (.inr (.inr ⟨_, rfl⟩))) (.inr (.inl rfl))
      | cons j jobs =>
        cases h
        exact .stream w (.inr (.inr (.inr ⟨_, rfl⟩))) (.inr (.inr (.inl ⟨_, rfl⟩)))
    | cancel =>
      cases h
      exact .stream w (.inr (.inr (.inr ⟨_, rfl⟩))) (.inr (.inr (.inr (.inl rfl))))
    | _ => cases h
  | park w =>
    cases x with
    | go =>
      cases h
      exact .stream w (.inr (.inr (.inl rfl))) (.inl rfl)
    | fail | cancel =>
      cases h
      exact .stream w (.inr (.inr (.inl rfl))) (.inr (.inr (.inr (.inl rfl))))
    | _ => cases h
  | release conn =>
    cases h
    exact .release conn
  | execute k =>
    simp only [sem] at h
    split at h
    · rename_i task htask
      split at h
      · rename_i htodo
        cases h
        exact .execute k rfl htask htodo
      · rename_i htodo
        cases h
        exact .abort k htask htodo
      · cases h
    · cases h
  | ack node seqs leaseIds now =>
    simp only [sem] at h
    split at h
    · cases h
      exact .other s.q (by simp) fun _ hq => hq
    · cases h
      exact .other _ (by simp) fun _ hq => hq.ackLeases node seqs leaseIds now
  | nack node seqs leaseIds delayMs now =>
    simp only [sem] at h
    split at h
    · cases h
      exact .other s.q (by simp) fun _ hq => hq
    · cases h
      exact .other _ (by simp) fun _ hq => hq.nackLeases node seqs leaseIds delayMs now
  | extend node seqs leaseIds leaseMs now =>
    simp only [sem] at h
    split at h
    · cases h
      exact .other s.q (by simp) fun _ hq => hq
    · cases h
      exact .other _ (by simp) fun _ hq => hq.extendLeases node seqs leaseIds leaseMs now
  | sweep now =>
    cases h
    exact .other _ (by simp) fun _ hq => hq.sweepExpired now
  | reclaim seqs =>
    cases h
    exact .other _ (by simp) fun _ hq => hq.reclaim seqs

end Topics
