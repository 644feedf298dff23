import Topics.QueueMoves
import Topics.TopicSteps

/-!
# The calls on a queue, step by step

Claims, acks, nacks, extends, connection releases and counter reads on a queue topic, with writes,
deletes and reads of the same topic, run as threads.  A step is one section under the lock of the
projection, one step of the topic (`FloorState.sem`), or one operation that may fail: the durable
delete of a job, the creation of the dead-letter topic, or the append to it.
-/

namespace Topics

open Lib Function QueueProjection Outcome List Option

/-! ## The machine -/

/-- A queue topic, its dead-letter topic, and the history of its deliveries. -/
structure QueueRun where
  floor : FloorState
  /-- The dead-letter topic, once it is registered. -/
  deadLetter : Option TopicState
  /-- History: the jobs handed to claimers, once for every delivery. -/
  handed : List Nat
  /-- History: the jobs diverted to the dead-letter topic. -/
  diverted : List Nat
  /-- History: thread and seq of the diverted jobs that are neither copied nor back yet. -/
  diverting : List (Nat × Nat)
  /-- History: the jobs of which a copy was appended to the dead-letter topic. -/
  copied : List Nat

/-- The atomic steps of the calls.  `seqs` are the jobs a call still has to deal with. -/
inductive QueueInstr where
  | floor (i : FloorInstr)
  | claim (claimers : List Claimer) (leaseMs : Option Nat) (now : Int)
  | openDeadLetter (name : String) (seqs : List Nat) (now : Int)
  | putDeadLetter (name : String) (seqs : List Nat) (now : Int)
  | copyJobs (seqs : List Nat) (now : Int)
  | appendDeadLetter (seqs : List Nat) (copies : List (Nat × StoredRecord)) (now : Int)
  | requeue (seqs : List Nat)
  /-- The delete loop of `dead_letter_jobs`. -/
  | purge (seqs : List Nat) (now : Int)
  | ack (node : String) (seqs : List Nat) (leaseIds : List (Option Nat)) (now : Int)
  /-- The delete loop of `ack_fenced`. -/
  | settle (seqs : List Nat) (now : Int)
  | reclaimSeq (seq : Nat)
  | nack (node : String) (seqs : List Nat) (leaseIds : List (Option Nat)) (delayMs : Nat) (now : Int)
  | extend (node : String) (seqs : List Nat) (leaseIds : List (Option Nat)) (leaseMs : Nat)
      (now : Int)
  | releaseConn (conn : Nat)
  | sweep (now : Int)

/-- The calls.  A counter read whose retention pass fails goes on as `sweep`. -/
inductive QueueCall where
  | write (stored : List StoredRecord) (now : Int)
  | delete (beforeSeq : Option Nat) (match_ : Option Filter) (now : Int)
  | read (now : Int)
  | claim (claimers : List Claimer) (leaseMs : Option Nat) (now : Int)
  | ack (node : String) (seqs : List Nat) (leaseIds : List (Option Nat)) (now : Int)
  | nack (node : String) (seqs : List Nat) (leaseIds : List (Option Nat)) (delayMs : Nat) (now : Int)
  | extend (node : String) (seqs : List Nat) (leaseIds : List (Option Nat)) (leaseMs : Nat)
      (now : Int)
  | releaseConn (conn : Nat)
  | counters (now : Int)
  | sweep (now : Int)

namespace QueueInstr

/-- `queue_counters`. -/
def counters (now : Int) : List QueueInstr := [.floor (.readHead now true), .sweep now]

def seqs : QueueInstr → List Nat
  | .openDeadLetter _ seqs _ | .putDeadLetter _ seqs _ | .copyJobs seqs _
  | .appendDeadLetter seqs _ _ | .requeue seqs | .purge seqs _ | .settle seqs _ => seqs
  | .reclaimSeq seq => [seq]
  | .floor (.removeSeqs seqs) => seqs
  | _ => []

def floor? : QueueInstr → Option FloorInstr
  | .floor i => some i
  | _ => none

end QueueInstr

/-- The working set of a call: the seqs it has taken out and is not done with. -/
def carried (code : List QueueInstr) : List Nat := code.flatMap QueueInstr.seqs

def floorCode (code : List QueueInstr) : List FloorInstr := code.filterMap QueueInstr.floor?

def QueueCall.body : QueueCall → List QueueInstr
  | .write stored now => (FloorCall.write stored now).body.map .floor
  | .delete beforeSeq match_ now => (FloorCall.delete beforeSeq match_ now).body.map .floor
  | .read now => (FloorCall.diff now).body.map .floor
  | .claim claimers leaseMs now => [.floor (.readHead now true), .claim claimers leaseMs now]
  | .ack node seqs leaseIds now => [.ack node seqs leaseIds now]
  | .nack node seqs leaseIds delayMs now => [.nack node seqs leaseIds delayMs now]
  | .extend node seqs leaseIds leaseMs now => [.extend node seqs leaseIds leaseMs now]
  | .releaseConn conn => [.releaseConn conn]
  | .counters now => QueueInstr.counters now
  | .sweep now => [.sweep now]

/-- `Outcome` of a step of the topic, inside a call on the queue. -/
def Lib.Outcome.inQueue (s : QueueRun) : Outcome FloorState FloorInstr → Outcome QueueRun QueueInstr
  | .next f more => .next { s with floor := f } (more.map .floor)
  | .stop f => .stop { s with floor := f }

namespace QueueRun

variable {Blob : Type}

def topic (s : QueueRun) : TopicState := s.floor.topic

def setQueue (s : QueueRun) (q : QueueProjection) : QueueRun :=
  { s with floor := { s.floor with topic := { s.floor.topic with queue := some q } } }

def fsync (s : QueueRun) : Bool := s.topic.config.durabilityClass == .fsync

/-- The instant until which a claim leases its jobs. -/
def claimDeadline (s : QueueRun) (leaseMs : Option Nat) (now : Int) : Int :=
  min (2 ^ 63 - 1)
    (now + (max minLeaseMs (min (leaseMs.getD s.topic.config.leaseMs) maxLeaseMs) : Nat))

def claimPass (s : QueueRun) (q : QueueProjection) (claimers : List Claimer) (leaseMs : Option Nat)
    (now : Int) : ClaimPass :=
  runClaimCohort q s.topic.index s.topic.headSeq claimers
    ⟨s.topic.config.maxDeliveries, s.topic.config.deadLetter.isSome, s.claimDeadline leaseMs now⟩ now

def afterClaim (deadLetter : Option String) (pass : ClaimPass) (now : Int) : List QueueInstr :=
  match deadLetter with
  | some name =>
    if pass.toDeadLetter.isEmpty then [] else [.openDeadLetter name pass.toDeadLetter now]
  | none => []

/-- Thread `t` is done with the jobs it diverted. -/
def divertDone (s : QueueRun) (t : Nat) : List (Nat × Nat) := s.diverting.filter (·.1 ≠ t)

section Sem

variable (S : Serde Blob) (resolve : Nat → Value × Option Value) (deadLetterId : Nat)

/-- The copies of the jobs that are still there, with the seqs of the jobs. -/
def copies (s : QueueRun) (seqs : List Nat) (now : Int) : List (Nat × StoredRecord) :=
  seqs.filterMap fun x => (s.topic.index.live x).map fun r =>
    (x, deadLetterRecord S resolve s.topic.name s.topic.config.maxDeliveries now x r)

/-- One step of thread `t`; `ok` is whether the operation in it succeeds. -/
def sem (s : QueueRun) (t : Nat) (ok : Bool) : QueueInstr → Option (Outcome QueueRun QueueInstr)
  | .floor i => (FloorState.sem s.floor t ok i).map (inQueue s)
  | .claim claimers leaseMs now =>
    s.topic.queue.map fun q =>
      let pass := s.claimPass q claimers leaseMs now
      .next
        { s.setQueue pass.q with
          handed := s.handed ++ pass.leased.map (·.2.1)
          diverted := s.diverted ++ pass.toDeadLetter
          diverting := s.diverting ++ pass.toDeadLetter.map fun x => (t, x) }
        (afterClaim s.topic.config.deadLetter pass now)
  | .openDeadLetter name seqs now =>
    some (.next s
      [if s.deadLetter.isNone then .putDeadLetter name seqs now else .copyJobs seqs now])
  | .putDeadLetter name seqs now =>
    match s.deadLetter with
    | none =>
      -- without the topic, the jobs go back
      if ok then
        some (.next
          { s with deadLetter := some (TopicState.new name deadLetterId {} seqBaseDefault) }
          [.copyJobs seqs now])
      else some (.next s [.requeue seqs])
    | some d =>
      -- another claim was faster: an update to the defaults
      some (.next
        (if ok then { s with deadLetter := some ({ d with config := {} }.enforceRetention now) } else s)
        [.copyJobs seqs now])
  | .copyJobs seqs now => some (.next s [.appendDeadLetter seqs (s.copies S resolve seqs now) now])
  | .appendDeadLetter seqs copies now =>
    if copies.isEmpty then some (.next { s with diverting := s.divertDone t } [.purge seqs now])
    else if ok then
      some (.next
        { s with
          deadLetter := s.deadLetter.map fun d =>
            (d.append (copies.map Prod.snd)).enforceRetention now
          diverting := s.divertDone t
          copied := s.copied ++ copies.map Prod.fst }
        [.purge seqs now])
    else some (.next s [.requeue seqs])
  | .requeue seqs =>
    s.topic.queue.map fun q =>
      .next
        { s.setQueue { seqs.foldl pushReclaim q with
            deadLettered := q.deadLettered - seqs.length } with
          diverting := s.divertDone t }
        []
  | .purge seqs now =>
    match seqs with
    | [] => some (.next s [])
    | seq :: rest =>
      some (.next s
        [if s.fsync && !ok then .reclaimSeq seq else .floor (.removeSeqs [seq]), .purge rest now])
  | .ack node seqs leaseIds now =>
    if fencedRefuses node seqs leaseIds then some (.stop s)
    else s.topic.queue.map fun q =>
      let r := q.ackLeases node seqs leaseIds now
      .next (s.setQueue r.1) [.settle (r.2.map Prod.fst) now]
  | .settle seqs now =>
    match seqs with
    | [] => some (.next s (QueueInstr.counters now))
    | seq :: rest =>
      -- the first failure gives back what is left of the batch
      if s.fsync && !ok then some (.next s ((seq :: rest).map .reclaimSeq))
      else some (.next s [.floor (.removeSeqs [seq]), .settle rest now])
  | .reclaimSeq seq => s.topic.queue.map fun q => .next (s.setQueue (q.pushReclaim seq)) []
  | .nack node seqs leaseIds delayMs now =>
    if fencedRefuses node seqs leaseIds then some (.stop s)
    else s.topic.queue.map fun q =>
      .next (s.setQueue (q.nackLeases node seqs leaseIds delayMs now).1) (QueueInstr.counters now)
  | .extend node seqs leaseIds leaseMs now =>
    if fencedRefuses node seqs leaseIds then some (.stop s)
    else s.topic.queue.map fun q =>
      .next (s.setQueue (q.extendLeases node seqs leaseIds leaseMs now).1) []
  | .releaseConn conn => s.topic.queue.map fun q => .next (s.setQueue (q.releaseConn conn).1) []
  | .sweep now => s.topic.queue.map fun q => .next (s.setQueue (q.sweepExpired now)) []

abbrev step := Threads.step QueueCall.body (sem S resolve deadLetterId)

end Sem

/-- A new queue topic; the dead-letter topic may already exist. -/
def start (spec : TopicSpec) (deadLetter : Option TopicState) : Threads QueueRun QueueInstr :=
  ⟨⟨.init spec, deadLetter, [], [], [], []⟩, fun _ => []⟩

end QueueRun

/-! ## The invariant -/

/-- Where the jobs are: `held t` is the working set of thread `t`. -/
structure Parted (q : QueueProjection) (b : TopicState) (held : Nat → List Nat) : Prop where
  cursor : q.claimCursor ≤ b.headSeq + 1
  once : ∀ t x, q.spots (held t) x ≤ 1
  apart : ∀ t t' x, t ≠ t' → x ∈ held t → x ∉ held t'
  below : ∀ t x, 0 < q.spots (held t) x → x < q.claimCursor
  placed : ∀ x, x ≤ b.headSeq → (b.index.live x).isSome → x < q.claimCursor →
    ∃ t, 0 < q.spots (held t) x

namespace Parted

open QueueProjection FloorState

variable {q q' : QueueProjection} {b b' : TopicState} {held : Nat → List Nat} {t : Nat}
  {own : List Nat}

theorem spots_eq (q : QueueProjection) (l : List Nat) (x : Nat) :
    q.spots l x = q.spots [] x + l.count x := by
  simp [spots]

/-- **One section.**  Thread `t` moves jobs; the topic goes on. -/
theorem move (h : Parted q b held) (htail : b.headSeq < b.index.tail) (honward : Onward b b')
    (hmoves : Moves b'.index b.headSeq q q' (held t) own) :
    Parted q' b' (update held t own) := by
  have hcursor := h.cursor
  have hbound := hmoves.bound
  have hhead := honward.head
  -- the places of `x`, counted with the working set of a thread, before and after
  have hold : ∀ t' x, q.spots [] x + (held t').count x ≤ 1 ∧
      (0 < q.spots [] x + (held t').count x → x < q.claimCursor) := fun t' x => by
    rw [← spots_eq]
    exact ⟨h.once t' x, h.below t' x⟩
  have happart : ∀ t' x, t' ≠ t → (held t').count x = 0 ∨ (held t).count x = 0 := fun t' x hne => by
    by_cases hx : x ∈ held t'
    · exact .inr (count_eq_zero.mpr (h.apart t' t x hne hx))
    · exact .inl (count_eq_zero.mpr hx)
  have hnew : ∀ x, q'.spots [] x + own.count x ≤ q.spots [] x + (held t).count x +
      passed q.claimCursor q'.claimCursor x := fun x => by
    rw [← spots_eq, ← spots_eq]
    exact hmoves.spots x
  have hpassed := passed_cases q.claimCursor q'.claimCursor
  have hcursor' := hmoves.cursor
  have hdisjoint : ∀ t' x, t' ≠ t → x ∈ own → x ∉ held t' := fun t' x hne hx hx' => by
    have hpos := count_pos_iff.mpr hx
    have hpos' := count_pos_iff.mpr hx'
    have := hold t' x
    have := happart t' x hne
    have := hnew x
    have := hpassed x
    omega
  refine ⟨by omega, ?_, fun t₁ t₂ x hne => ?_, ?_, fun x hx hlive hlt => ?_⟩
  · refine (forall_update_iff held fun _ l => ∀ x, q'.spots l x ≤ 1).mpr ⟨fun x => ?_, fun t' ht x => ?_⟩
    all_goals
      rw [spots_eq]
      have := hold t x
      have := hnew x
      have := hpassed x
    · omega
    · have := hold t' x
      have := happart t' x ht
      omega
  · by_cases ht₁ : t₁ = t
    · subst ht₁
      rw [update_self, update_of_ne hne.symm]
      exact hdisjoint t₂ x hne.symm
    · rw [update_of_ne ht₁]
      by_cases ht₂ : t₂ = t
      · subst ht₂
        rw [update_self]
        exact fun hx hx' => hdisjoint t₁ x ht₁ hx' hx
      · rw [update_of_ne ht₂]
        exact h.apart t₁ t₂ x hne
  · refine (forall_update_iff held fun _ l => ∀ x, 0 < q'.spots l x → x < q'.claimCursor).mpr
      ⟨fun x => ?_, fun t' _ x => ?_⟩
    all_goals
      rw [spots_eq]
      have := hold t x
      have := hnew x
      have := hpassed x
    · omega
    · have := hold t' x
      omega
  · -- a live job that the cursor has passed was live and published before
    have hxhead : x ≤ b.headSeq := by omega
    have hwas : (b.index.live x).isSome := by
      obtain ⟨r, hr⟩ := isSome_iff_exists.mp hlive
      rcases honward.live x r hr with hr' | hle
      · rw [hr']
        rfl
      · omega
    by_cases hmine : 0 < q.spots (held t) x + passed q.claimCursor q'.claimCursor x
    · refine ⟨t, ?_⟩
      rw [update_self]
      exact hmoves.kept x hlive hmine
    · -- another thread has it in its hands
      have hc : x < q.claimCursor := by
        have := hpassed x
        omega
      obtain ⟨t', hpos⟩ := h.placed x hxhead hwas hc
      have ht : t' ≠ t := by
        rintro rfl
        omega
      refine ⟨t', ?_⟩
      rw [spots_eq] at hmine hpos
      rw [update_of_ne ht, spots_eq]
      omega

end Parted

/-! ## One step -/

/-- The steps after which a call has nothing in its hands. -/
def QueueInstr.last : QueueInstr → Bool
  | .floor (.removeSeqs _) | .openDeadLetter .. | .putDeadLetter .. | .copyJobs ..
  | .appendDeadLetter .. | .requeue _ | .purge .. | .reclaimSeq _ => false
  | _ => true

/-- A call that can end early has nothing in its hands behind that point. -/
def Tidy : List QueueInstr → Prop
  | [] => True
  | i :: rest => (i.last = true → carried rest = []) ∧ Tidy rest

@[simp] theorem carried_cons (i : QueueInstr) (code : List QueueInstr) :
    carried (i :: code) = i.seqs ++ carried code := rfl

@[simp] theorem carried_nil : carried [] = [] := rfl

@[simp] theorem carried_append (code rest : List QueueInstr) :
    carried (code ++ rest) = carried code ++ carried rest := flatMap_append

theorem carried_map_reclaimSeq (seqs : List Nat) : carried (seqs.map .reclaimSeq) = seqs := by
  induction seqs with
  | nil => rfl
  | cons x seqs ih => rw [map_cons, carried_cons, ih]; rfl

theorem Tidy.append {code rest : List QueueInstr} (hcode : Tidy code) (hrest : Tidy rest)
    (hnone : carried rest = [] ∨ ∀ i ∈ code, i.last = false) : Tidy (code ++ rest) := by
  induction code with
  | nil => exact hrest
  | cons i code ih =>
    refine ⟨fun hi => ?_, ih hcode.2 (hnone.imp_right fun h j hj => h j (mem_cons_of_mem _ hj))⟩
    rcases hnone with hnone | hnone
    · have hboth : carried (code ++ rest) = [] := by rw [carried_append, hcode.1 hi, hnone]; rfl
      exact hboth
    · rw [hnone i mem_cons_self] at hi
      cases hi

theorem tidy_of_seqs {code : List QueueInstr} (h : ∀ i ∈ code, i.seqs = []) : Tidy code := by
  induction code with
  | nil => trivial
  | cons i code ih =>
    have htail : ∀ j ∈ code, j.seqs = [] := fun j hj => h j (mem_cons_of_mem _ hj)
    exact ⟨fun _ => flatMap_eq_nil_iff.mpr htail, ih htail⟩

section Floor

variable {s : FloorState} {i : FloorInstr} {more : List FloorInstr}

theorem floor_more (h : FloorState.Goes s i more) :
    ∀ j ∈ more.map QueueInstr.floor, j.seqs = [] ∧ j.last = true := by
  intro j hj
  obtain ⟨k, hk, rfl⟩ := mem_map.mp hj
  cases h with
  | done => cases hk
  | plan | harden | commit | reclaim | hardened | committed | selected =>
    cases mem_singleton.mp hk
    exact ⟨rfl, rfl⟩
  | staged =>
    simp only [mem_cons, not_mem_nil, or_false] at hk
    rcases hk with rfl | rfl <;> exact ⟨rfl, rfl⟩
  | bounded =>
    simp only [mem_cons, not_mem_nil, or_false] at hk
    rcases hk with rfl | rfl | rfl | rfl | rfl <;> exact ⟨rfl, rfl⟩

end Floor

theorem carried_eq_nil {code : List QueueInstr} (h : ∀ i ∈ code, i.seqs = []) : carried code = [] :=
  flatMap_eq_nil_iff.mpr h

namespace FloorState

theorem TicketCode.prepend {line : List (Nat × Option StagedAppend)} {turn t : Nat}
    {new code : List FloorInstr} (hnew : ∀ i ∈ new, ¬ Ticketed i)
    (hc : TicketCode line turn t code) : TicketCode line turn t (new ++ code) := by
  have hfront : ∀ pre : List FloorInstr, (∀ j ∈ pre, ¬ Ticketed j) → ∀ j ∈ new ++ pre, ¬ Ticketed j :=
    fun pre hpre => forall_mem_append.mpr ⟨hnew, hpre⟩
  cases hc with
  | free h => exact .free (hfront _ h)
  | stages stored hpre hpost =>
    rw [← append_assoc]
    exact .stages stored (hfront _ hpre) hpost
  | bounds beforeSeq match_ now hpre hpost =>
    rw [← append_assoc]
    exact .bounds beforeSeq match_ now (hfront _ hpre) hpost
  | publishes g n hline hpre hpost =>
    rw [← append_assoc]
    exact .publishes g n hline (hfront _ hpre) hpost
  | waits n hline hpre hmid hpost =>
    rw [← append_assoc]
    exact .waits n hline (hfront _ hpre) hmid hpost
  | holds hline hmid hpost =>
    rw [← append_assoc]
    exact .holds hline (hfront _ hmid) hpost

end FloorState

namespace QueueRun

open QueueProjection FloorState

variable {Blob : Type} {S : Serde Blob} {resolve : Nat → Value × Option Value} {deadLetterId : Nat}
  {s : QueueRun} {t : Nat} {ok : Bool} {i : QueueInstr} {rest : List QueueInstr}
  {o : Outcome QueueRun QueueInstr}

/-- What a step of the queue proper does: it moves jobs between the projection and its hands. -/
structure Section (s s' : QueueRun) (q q' : QueueProjection) (i : QueueInstr)
    (more : List QueueInstr) : Prop where
  floor : s'.floor = (s.setQueue q').floor
  moves : ∀ held, Moves s.topic.index s.topic.headSeq q q' (i.seqs ++ held) (carried more ++ held)
  calm : ∀ j ∈ floorCode more, ¬ Ticketed j
  tidy : Tidy more
  last : i.last = true ∨ ∀ j ∈ more, j.last = false

variable {q : QueueProjection} {s' : QueueRun} {more : List QueueInstr} {head : Nat}

theorem setQueue_self (hq : s.topic.queue = some q) :
    (s.setQueue q).floor = s.floor := by
  have htopic : ({ s.floor.topic with queue := some q } : TopicState) = s.floor.topic := by
    rw [← hq]
    rfl
  simp only [setQueue, htopic]

theorem Section.hand (hq : s.topic.queue = some q) (hfloor : s'.floor = s.floor)
    (hseqs : carried more = i.seqs) (hcalm : ∀ j ∈ floorCode more, ¬ Ticketed j)
    (htidy : Tidy more) (hlast : i.last = true ∨ ∀ j ∈ more, j.last = false) :
    Section s s' q q i more where
  floor := hfloor.trans (setQueue_self hq).symm
  moves held := by
    rw [hseqs]
    exact .refl q _
  calm := hcalm
  tidy := htidy
  last := hlast

theorem Section.finish {q q' : QueueProjection} (hfloor : s'.floor = (s.setQueue q').floor)
    (hmoves : ∀ held, Moves s.topic.index s.topic.headSeq q q' (i.seqs ++ held) held)
    (hmore : more = [] ∨ i.last = true ∧ ∃ now, more = QueueInstr.counters now) :
    Section s s' q q' i more := by
  rcases hmore with rfl | ⟨hlast, now, rfl⟩
  · exact ⟨hfloor, hmoves, forall_mem_nil _, trivial, .inr (forall_mem_nil _)⟩
  · refine ⟨hfloor, hmoves, fun j hj => ?_, ⟨fun _ => rfl, fun _ => rfl, trivial⟩, .inl hlast⟩
    cases mem_singleton.mp hj
    exact id

theorem toDeadLetter_of_none (q : QueueProjection) (claimers : List Claimer) (leaseMs : Option Nat)
    (now : Int) (hnone : s.topic.config.deadLetter = none) :
    (s.claimPass q claimers leaseMs now).toDeadLetter = [] := by
  refine ClaimPass.claimLoop_induct (P := fun st => st.toDeadLetter = []) (fun _ _ h => h)
    (fun _ _ _ h _ => h) (fun _ _ _ _ _ _ hdead => ?_) (fun _ _ _ _ h _ _ => h) _ rfl
  rw [hnone] at hdead
  exact absurd hdead.2.2 Bool.false_ne_true

theorem carried_afterClaim (q : QueueProjection) (claimers : List Claimer) (leaseMs : Option Nat)
    (now : Int) :
    carried (afterClaim s.topic.config.deadLetter (s.claimPass q claimers leaseMs now) now) =
      (s.claimPass q claimers leaseMs now).toDeadLetter := by
  cases hdead : s.topic.config.deadLetter with
  | none => exact (toDeadLetter_of_none q claimers leaseMs now hdead).symm
  | some name =>
    simp only [afterClaim]
    split
    · rename_i hempty
      exact (isEmpty_iff.mp hempty).symm
    · simp [QueueInstr.seqs]

theorem moves_foldl_pushReclaim {ix : TopicIndex} (seqs : List Nat) (q : QueueProjection)
    (held : List Nat) :
    Moves ix head q (seqs.foldl pushReclaim q) (seqs ++ held) held := by
  induction seqs generalizing q with
  | nil => exact .refl q held
  | cons x seqs ih =>
    refine Moves.trans (moves_pushReclaim fun y => ?_) (ih (q.pushReclaim x))
    simp only [cons_append, count_cons, beq_iff_eq]

theorem eq_of_map (hq : s.topic.queue = some q) {f : QueueProjection → Outcome QueueRun QueueInstr}
    (h : s.topic.queue.map f = some o) : o = f q := by
  rw [hq] at h
  exact (some.inj h).symm

theorem refused_or_eq (hq : s.topic.queue = some q) {c : Bool}
    {f : QueueProjection → Outcome QueueRun QueueInstr}
    (h : (if c then some (.stop s) else s.topic.queue.map f) = some o) : o = .stop s ∨ o = f q := by
  cases c with
  | false => exact .inr (eq_of_map hq h)
  | true => exact .inl (some.inj h).symm

/-- **Inversion of the steps of the queue proper.** -/
theorem section_of_sem (hq : s.topic.queue = some q) (hi : i.floor? = none)
    (hsem : sem S resolve deadLetterId s t ok i = some o) :
    (o = .stop s ∧ i.last = true ∧ i.seqs = []) ∨
      ∃ s' more q', o = .next s' more ∧ Section s s' q q' i more := by
  have hswap : ∀ {q' held l}, Moves s.topic.index s.topic.headSeq q q' held (held ++ l) →
      Moves s.topic.index s.topic.headSeq q q' held (l ++ held) := fun h =>
    h.trans (.of_spots rfl (fun x => by simp [spots, Nat.add_comm]) fun x hx => by
      simpa [spots, Nat.add_comm] using hx)
  cases i with
  | floor => cases hi
  | claim claimers leaseMs now =>
    obtain rfl := eq_of_map hq hsem
    refine .inr ⟨_, _, _, rfl, rfl, fun held => ?_, fun j hj => ?_, ?_, .inl rfl⟩
    · rw [carried_afterClaim]
      exact hswap (moves_runClaimCohort ..)
    · revert hj
      unfold afterClaim
      split
      · split
        all_goals exact fun hj => by cases hj
      · exact fun hj => by cases hj
    · unfold afterClaim
      split
      · split
        · trivial
        · exact ⟨fun h => (by cases h), trivial⟩
      · trivial
  | openDeadLetter name seqs now =>
    cases hsem
    refine .inr ⟨_, _, _, rfl, .hand hq rfl ?_ ?_ ?_ (.inr ?_)⟩
    all_goals split <;> simp [QueueInstr.seqs, floorCode, QueueInstr.floor?, Tidy, QueueInstr.last]
  | putDeadLetter name seqs now =>
    simp only [sem] at hsem
    split at hsem
    · split at hsem <;> cases hsem <;> refine .inr ⟨_, _, _, rfl, .hand hq ?_ ?_ ?_ ?_ (.inr ?_)⟩
      all_goals
        first | rfl | simp [QueueInstr.seqs, floorCode, QueueInstr.floor?, Tidy, QueueInstr.last]
    · cases hsem
      refine .inr ⟨_, _, _, rfl, .hand hq (by split <;> rfl) ?_ ?_ ?_ (.inr ?_)⟩
      all_goals simp [QueueInstr.seqs, floorCode, QueueInstr.floor?, Tidy, QueueInstr.last]
  | copyJobs seqs now =>
    cases hsem
    refine .inr ⟨_, _, _, rfl, .hand hq rfl ?_ ?_ ?_ (.inr ?_)⟩
    all_goals simp [QueueInstr.seqs, floorCode, QueueInstr.floor?, Tidy, QueueInstr.last]
  | appendDeadLetter seqs copies now =>
    simp only [sem] at hsem
    (repeat' split at hsem) <;> cases hsem <;>
      refine .inr ⟨_, _, _, rfl, .hand hq ?_ ?_ ?_ ?_ (.inr ?_)⟩
    all_goals
      first | rfl | simp [QueueInstr.seqs, floorCode, QueueInstr.floor?, Tidy, QueueInstr.last]
  | requeue seqs =>
    obtain rfl := eq_of_map hq hsem
    refine .inr ⟨_, _, _, rfl, .finish rfl (fun held => ?_) (.inl rfl)⟩
    exact (moves_foldl_pushReclaim seqs q held).trans (.of_spots rfl (fun _ => le_rfl) fun _ => id)
  | purge seqs now =>
    cases seqs with
    | nil =>
      cases hsem
      exact .inr ⟨_, _, _, rfl, .hand hq rfl rfl (forall_mem_nil _) trivial
        (.inr (forall_mem_nil _))⟩
    | cons x seqs =>
      cases hsem
      refine .inr ⟨_, _, _, rfl, .hand hq rfl ?_ ?_ ?_ (.inr ?_)⟩
      all_goals
        split <;> simp [QueueInstr.seqs, floorCode, QueueInstr.floor?, Tidy, QueueInstr.last, Ticketed]
  | ack node seqs leaseIds now =>
    rcases refused_or_eq hq hsem with rfl | rfl
    · exact .inl ⟨rfl, rfl, rfl⟩
    · refine .inr ⟨_, _, _, rfl, rfl, fun held => ?_, ?_, ?_, .inl rfl⟩
      · simp only [carried_cons, carried_nil, append_nil, QueueInstr.seqs]
        exact hswap (moves_ackLeases q node seqs leaseIds now)
      · exact fun j hj => by cases hj
      · exact ⟨fun _ => rfl, trivial⟩
  | settle seqs now =>
    cases seqs with
    | nil =>
      cases hsem
      exact .inr ⟨_, _, q, rfl, .finish (setQueue_self hq).symm (fun held => .refl q held)
        (.inr ⟨rfl, now, rfl⟩)⟩
    | cons x seqs =>
      simp only [sem] at hsem
      split at hsem
      · cases hsem
        refine .inr ⟨_, _, _, rfl, .hand hq rfl (carried_map_reclaimSeq _) (fun j hj => ?_) ?_ (.inl rfl)⟩
        · rw [floorCode, filterMap_map] at hj
          simp [QueueInstr.floor?, comp_def] at hj
        · have htidy : ∀ l : List Nat, Tidy (l.map .reclaimSeq) := fun l => by
            induction l with
            | nil => trivial
            | cons y l ih => exact ⟨fun h => (by cases h), ih⟩
          exact htidy _
      · cases hsem
        refine .inr ⟨_, _, _, rfl, .hand hq rfl ?_ ?_ ?_ (.inl rfl)⟩
        all_goals simp [QueueInstr.seqs, floorCode, QueueInstr.floor?, Tidy, QueueInstr.last, Ticketed]
  | reclaimSeq x =>
    obtain rfl := eq_of_map hq hsem
    exact .inr ⟨_, _, _, rfl, .finish rfl (fun held => moves_foldl_pushReclaim [x] q held) (.inl rfl)⟩
  | nack node seqs leaseIds delayMs now =>
    rcases refused_or_eq hq hsem with rfl | rfl
    · exact .inl ⟨rfl, rfl, rfl⟩
    · exact .inr ⟨_, _, _, rfl, .finish rfl (fun held => moves_nackLeases ..)
        (.inr ⟨rfl, now, rfl⟩)⟩
  | extend node seqs leaseIds leaseMs now =>
    rcases refused_or_eq hq hsem with rfl | rfl
    · exact .inl ⟨rfl, rfl, rfl⟩
    · exact .inr ⟨_, _, _, rfl, .finish rfl (fun held => moves_extendLeases ..) (.inl rfl)⟩
  | releaseConn conn =>
    obtain rfl := eq_of_map hq hsem
    exact .inr ⟨_, _, _, rfl, .finish rfl (fun held => moves_releaseConn ..) (.inl rfl)⟩
  | sweep now =>
    obtain rfl := eq_of_map hq hsem
    exact .inr ⟨_, _, _, rfl, .finish rfl (fun held => moves_sweepExpired ..) (.inl rfl)⟩

theorem moves_of_floor {i : FloorInstr} {fo : Outcome FloorState FloorInstr}
    (htidy : Tidy (.floor i :: rest)) (hsem : FloorState.sem s.floor t ok i = some fo) :
    Moves fo.shared.topic.index head q q (carried (.floor i :: rest))
      (carried ((fo.inQueue s).code rest)) := by
  by_cases hlast : (QueueInstr.floor i).last = true
  · have hrest := htidy.1 hlast
    have hseqs : (QueueInstr.floor i).seqs = [] := by
      cases i with
      | removeSeqs => cases hlast
      | _ => rfl
    have hafter : carried ((fo.inQueue s).code rest) = [] := by
      cases fo with
      | stop f => rfl
      | next f more =>
        have hmore := carried_eq_nil fun j hj => (floor_more (goes_of_sem hsem) j hj).1
        rw [show (inQueue s (.next f more)).code rest = more.map .floor ++ rest from rfl,
          carried_append, hmore, hrest]
        rfl
    rw [hafter, carried_cons, hseqs, hrest]
    exact .refl q _
  · cases i with
    | removeSeqs seqs =>
      cases hsem
      refine ⟨le_rfl, le_max_left _ _, fun x => ?_, fun x hx hpos => ?_⟩
      · simp only [passed_self, spots, carried_cons, QueueInstr.seqs, count_append]
        change _ + count x (carried rest) ≤ _
        omega
      · have hnot : x ∉ seqs := fun hmem => by
          have hdead := TopicState.live_deleteSeqs_of_mem s.floor.topic hmem
          rw [shared_next, hdead] at hx
          cases hx
        simp only [passed_self, spots, carried_cons, QueueInstr.seqs, count_append,
          count_eq_zero.mpr hnot, Nat.zero_add, Nat.add_zero] at hpos
        exact hpos
    | _ => exact absurd rfl hlast

/-! ## Every run -/

/-- The invariant of a run: the publish gate, the shape of the codes, and the places of the jobs. -/
structure Sorted (line : List (Nat × Option StagedAppend)) (q : QueueProjection)
    (s : Threads QueueRun QueueInstr) : Prop where
  gate : Gated line s.shared.floor
  tickets : ∀ t, TicketCode line s.shared.floor.turn t (floorCode (s.code t))
  tidy : ∀ t, Tidy (s.code t)
  queue : s.shared.topic.queue = some q
  parted : Parted q s.shared.topic fun t => carried (s.code t)

theorem floorCode_map_floor (l : List FloorInstr) : floorCode (l.map .floor) = l := by
  rw [floorCode, filterMap_map]
  exact filterMap_some

theorem floorCode_append (code rest : List QueueInstr) :
    floorCode (code ++ rest) = floorCode code ++ floorCode rest := filterMap_append

theorem floorCode_inQueue (fo : Outcome FloorState FloorInstr) (rest : List QueueInstr) :
    floorCode ((fo.inQueue s).code rest) = fo.code (floorCode rest) := by
  cases fo with
  | stop f => rfl
  | next f more =>
    refine (floorCode_append _ _).trans ?_
    rw [floorCode_map_floor]
    rfl

theorem shared_inQueue (fo : Outcome FloorState FloorInstr) :
    (fo.inQueue s).shared.floor = fo.shared := by
  cases fo <;> rfl

theorem body_tidy (c : QueueCall) (line : List (Nat × Option StagedAppend)) (turn t : Nat) :
    Tidy c.body ∧ carried c.body = [] ∧ TicketCode line turn t (floorCode c.body) := by
  cases c with
  | write stored now =>
    refine ⟨⟨fun _ => rfl, fun _ => rfl, fun _ => rfl, fun _ => rfl, fun _ => rfl, trivial⟩, rfl, ?_⟩
    rw [QueueCall.body, floorCode_map_floor]
    exact ticketCode_body line turn t _
  | delete beforeSeq match_ now =>
    refine ⟨⟨fun _ => rfl, fun _ => rfl, fun _ => rfl, trivial⟩, rfl, ?_⟩
    rw [QueueCall.body, floorCode_map_floor]
    exact ticketCode_body line turn t _
  | read now =>
    refine ⟨⟨fun _ => rfl, trivial⟩, rfl, ?_⟩
    rw [QueueCall.body, floorCode_map_floor]
    exact ticketCode_body line turn t _
  | claim | counters =>
    exact ⟨⟨fun _ => rfl, fun _ => rfl, trivial⟩, rfl, .free (by simp [floorCode, QueueCall.body,
      QueueInstr.counters, QueueInstr.floor?, Ticketed])⟩
  | ack | nack | extend | releaseConn | sweep =>
    exact ⟨⟨fun _ => rfl, trivial⟩, rfl, .free (by simp [floorCode, QueueCall.body, QueueInstr.floor?])⟩

section Run

variable {line : List (Nat × Option StagedAppend)} {q : QueueProjection}
  {s : Threads QueueRun QueueInstr}

theorem carried_update (code : Nat → List QueueInstr) (t : Nat) (own : List QueueInstr) :
    (fun t' => carried (update code t own t')) =
      update (fun t' => carried (code t')) t (carried own) :=
  funext (apply_update (fun _ => carried) code t own)

theorem Sorted.run (h : Sorted line q s) {o : Outcome QueueRun QueueInstr} {t : Nat}
    {i : QueueInstr} {rest : List QueueInstr} (hcode : s.code t = i :: rest)
    {line' : List (Nat × Option StagedAppend)} {q' : QueueProjection}
    (hgate : Gated line' o.shared.floor)
    (hown : TicketCode line' o.shared.floor.turn t (floorCode (o.code rest)))
    (hother : ∀ t' code, t' ≠ t → TicketCode line s.shared.floor.turn t' code →
      TicketCode line' o.shared.floor.turn t' code)
    (htidy : Tidy (o.code rest)) (hq : o.shared.topic.queue = some q')
    (honward : Onward s.shared.topic o.shared.topic)
    (hmoves : Moves o.shared.topic.index s.shared.topic.headSeq q q' (carried (i :: rest))
      (carried (o.code rest))) :
    Sorted line' q' ⟨o.shared, update s.code t (o.code rest)⟩ := by
  refine ⟨hgate, (forall_update_iff s.code fun t' code =>
    TicketCode line' o.shared.floor.turn t' (floorCode code)).mpr
      ⟨hown, fun t' ht => hother t' _ ht (h.tickets t')⟩,
    (forall_update_iff s.code fun _ => Tidy).mpr ⟨htidy, fun t' _ => h.tidy t'⟩, hq, ?_⟩
  rw [carried_update]
  rw [← hcode] at hmoves
  exact h.parted.move h.gate.lined.head_lt honward hmoves

/-- **One step.** -/
theorem Sorted.step (h : Sorted line q s) {s' : Threads QueueRun QueueInstr}
    {a : ThreadAction QueueCall Bool} (hstep : QueueRun.step S resolve deadLetterId s a = some s') :
    ∃ line' q', Sorted line' q' s' := by
  rcases Threads.step_cases _ _ hstep with
    ⟨t, c, rfl, hcode, rfl⟩ | ⟨t, ok, i, rest, o, rfl, hcode, hsem, rfl⟩
  · obtain ⟨htidy, hnone, htickets⟩ := body_tidy c line s.shared.floor.turn t
    refine ⟨line, q, h.gate, (forall_update_iff s.code fun t' code =>
      TicketCode line s.shared.floor.turn t' (floorCode code)).mpr
        ⟨htickets, fun t' _ => h.tickets t'⟩,
      (forall_update_iff s.code fun _ => Tidy).mpr ⟨htidy, fun t' _ => h.tidy t'⟩, h.queue, ?_⟩
    have hsame : update (fun t' => carried (s.code t')) t (carried c.body) =
        fun t' => carried (s.code t') := by
      rw [hnone]
      refine update_eq_self_iff.mpr ?_
      rw [hcode]
      rfl
    rw [carried_update, hsame]
    exact h.parted
  · have htidy := h.tidy t
    have htickets := h.tickets t
    rw [hcode] at htidy htickets
    cases hi : i.floor? with
    | some j =>
      -- a step of the topic
      obtain rfl : i = .floor j := by
        cases i <;> cases hi
        rfl
      obtain ⟨fo, hfo, rfl⟩ := map_eq_some_iff.mp hsem
      obtain ⟨hgate, hown, hother⟩ := h.gate.step htickets hfo
      have hafter : Tidy ((fo.inQueue s.shared).code rest) := by
        cases fo with
        | stop f => trivial
        | next f more =>
          refine Tidy.append (tidy_of_seqs fun k hk => (floor_more (goes_of_sem hfo) k hk).1) htidy.2 ?_
          cases j with
          | removeSeqs seqs =>
            cases hfo
            exact .inr (forall_mem_nil _)
          | _ => exact .inl (htidy.1 rfl)
      have htopic : (fo.inQueue s.shared).shared.topic = fo.shared.topic := by cases fo <;> rfl
      refine ⟨nextLine line s.shared.floor t j, q, h.run hcode ?_ ?_ ?_ hafter ?_ ?_ ?_⟩
      · rw [shared_inQueue]
        exact hgate
      · rw [shared_inQueue, floorCode_inQueue]
        exact hown
      · rw [shared_inQueue]
        exact hother
      · rw [htopic, queue_of_sem hfo]
        exact h.queue
      · rw [htopic]
        exact onward_of_sem h.gate htickets hfo
      · rw [htopic]
        exact moves_of_floor htidy hfo
    | none =>
      have hfree : TicketCode line s.shared.floor.turn t (floorCode rest) := by
        rwa [floorCode, filterMap_cons_none hi] at htickets
      rcases section_of_sem h.queue hi hsem with ⟨rfl, hlast, hseqs⟩ | ⟨s', more, q', rfl, hsec⟩
      · refine ⟨line, q, h.run hcode h.gate (.free (forall_mem_nil _)) (fun _ _ _ hc => hc)
          trivial h.queue ⟨le_rfl, le_rfl, fun _ _ hr => .inl hr⟩ ?_⟩
        rw [carried_cons, hseqs, htidy.1 hlast]
        exact .refl q _
      · have hfloor : s'.floor = (s.shared.setQueue q').floor := hsec.floor
        have htopic : s'.topic = (s.shared.setQueue q').topic := congrArg FloorState.topic hfloor
        refine ⟨line, q', h.run hcode ?_ ?_ ?_
          (hsec.tidy.append htidy.2 (hsec.last.imp_left htidy.1)) ?_ ?_ ?_⟩
        · rw [shared_next, hfloor]
          exact ⟨h.gate.tickets, h.gate.lined⟩
        · rw [shared_next, hfloor]
          have hnew := hfree.prepend hsec.calm
          rw [← floorCode_append] at hnew
          exact hnew
        · rw [shared_next, hfloor]
          exact fun _ _ _ hc => hc
        · rw [shared_next, htopic]
          rfl
        · rw [shared_next, htopic]
          exact ⟨le_rfl, le_rfl, fun _ _ hr => .inl hr⟩
        · have hmoves := hsec.moves (carried rest)
          rw [← carried_append] at hmoves
          rw [shared_next, htopic]
          exact hmoves

end Run

theorem sorted_start {spec : TopicSpec} (hqueue : spec.config.isQueue = true)
    (deadLetter : Option TopicState) :
    Sorted [] (new seqBaseDefault) (start spec deadLetter) := by
  have hnone : ∀ x, (new seqBaseDefault).spots [] x = 0 := fun x => by
    simp [spots, new]
  refine ⟨gated_init spec, fun _ => .free (forall_mem_nil _), fun _ => trivial, ?_, ?_⟩
  · simp [topic, start, FloorState.init, TopicSpec.fresh, TopicState.new, hqueue]
  · refine ⟨le_rfl, fun t x => ?_, fun t t' x _ hx => ?_, fun t x hpos => ?_, fun x _ hlive _ => ?_⟩
    · exact (hnone x).le.trans (Nat.zero_le _)
    · cases hx
    · exact absurd (hnone x) (Nat.pos_iff_ne_zero.mp hpos)
    · have hempty : (TopicIndex.new seqBaseDefault).live x = none := by
        simp [TopicIndex.live, TopicIndex.get, TopicIndex.new]
      rw [show (start spec deadLetter).shared.topic.index = .new seqBaseDefault from rfl, hempty] at hlive
      cases hlive

end QueueRun

/-! ## The partition -/

inductive Place where
  | leased
  | reclaim
  | delayed
  /-- At or behind the claim cursor. -/
  | fresh
  /-- In the working set of the call of a thread. -/
  | working (t : Nat)

namespace Parted

open QueueProjection

variable {q : QueueProjection} {b : TopicState} {held : Nat → List Nat} {x : Nat}

def At (q : QueueProjection) (held : Nat → List Nat) (x : Nat) : Place → Prop
  | .leased => q.leases.contains x = true
  | .reclaim => x ∈ q.reclaim
  | .delayed => ∃ readyAt, (readyAt, x) ∈ q.delayed
  | .fresh => q.claimCursor ≤ x
  | .working t => x ∈ held t

theorem count_delayed_pos (h : ∃ readyAt, (readyAt, x) ∈ q.delayed) :
    0 < (q.delayed.map Prod.snd).count x := by
  obtain ⟨readyAt, hmem⟩ := h
  exact count_pos_iff.mpr (mem_map.mpr ⟨_, hmem, rfl⟩)

theorem lt_of_at (h : Parted q b held) {p : Place} (hp : At q held x p) (hne : p ≠ .fresh) :
    x < q.claimCursor := by
  cases p with
  | fresh => exact absurd rfl hne
  | leased =>
    refine h.below 0 x ?_
    simp only [spots, show q.leases.contains x = true from hp, if_true]
    omega
  | reclaim =>
    refine h.below 0 x ?_
    have := count_pos_iff.mpr (show x ∈ q.reclaim from hp)
    simp only [spots]
    omega
  | delayed =>
    refine h.below 0 x ?_
    have := count_delayed_pos hp
    simp only [spots]
    omega
  | working t =>
    refine h.below t x ?_
    have := count_pos_iff.mpr (show x ∈ held t from hp)
    simp only [spots]
    omega

theorem at_unique (h : Parted q b held) {p p' : Place} (hp : At q held x p) (hp' : At q held x p') :
    p = p' := by
  by_contra hne
  -- outside the range behind the cursor, the numbers of places add up
  have hleased : At q held x .leased → (if q.leases.contains x = true then 1 else 0) = 1 :=
    fun hl => if_pos hl
  have hreclaim : At q held x .reclaim → 0 < q.reclaim.count x := count_pos_iff.mpr
  have hdelayed : At q held x .delayed → 0 < (q.delayed.map Prod.snd).count x := count_delayed_pos
  have hworking : ∀ t, At q held x (.working t) → 0 < (held t).count x := fun _ => count_pos_iff.mpr
  have honce : ∀ t, (if q.leases.contains x = true then 1 else 0) + q.reclaim.count x +
      (q.delayed.map Prod.snd).count x + (held t).count x ≤ 1 := fun t => h.once t x
  by_cases hfresh : p = .fresh
  · subst hfresh
    exact absurd (h.lt_of_at hp' (Ne.symm hne)) hp.not_gt
  by_cases hfresh' : p' = .fresh
  · subst hfresh'
    exact absurd (h.lt_of_at hp hne) hp'.not_gt
  have hzero := honce 0
  have hapart := fun t t' => h.apart t t' x
  cases p <;> cases p' <;> first
    | exact hne rfl
    | exact hfresh rfl
    | exact hfresh' rfl
    | grind [At]

theorem exists_at (h : Parted q b held) (hx : x ≤ b.headSeq) (hlive : (b.index.live x).isSome) :
    ∃ p, At q held x p := by
  by_cases hlt : x < q.claimCursor
  · obtain ⟨t, hpos⟩ := h.placed x hx hlive hlt
    unfold spots at hpos
    by_cases hl : q.leases.contains x = true
    · exact ⟨.leased, hl⟩
    by_cases hr : x ∈ q.reclaim
    · exact ⟨.reclaim, hr⟩
    by_cases hw : x ∈ held t
    · exact ⟨.working t, hw⟩
    rw [if_neg hl, count_eq_zero.mpr hr, count_eq_zero.mpr hw] at hpos
    obtain ⟨e, he, rfl⟩ := mem_map.mp (count_pos_iff.mp (by omega :
      0 < (q.delayed.map Prod.snd).count x))
    exact ⟨.delayed, e.1, he⟩
  · exact ⟨.fresh, not_lt.mp hlt⟩

end Parted

namespace QueueRun

open Parted

variable {Blob : Type} {S : Serde Blob} {resolve : Nat → Value × Option Value} {deadLetterId : Nat}

def workingSets (s : Threads QueueRun QueueInstr) (t : Nat) : List Nat := carried (s.code t)

/-- **The queue partition.**  In every state that any interleaving of the calls on a queue reaches,
whatever durable deletes, dead-letter creations and dead-letter appends fail, every published live
job is in exactly one place, and what is leased or on a heap lies below the claim cursor. -/
theorem queue_partition {spec : TopicSpec} (hqueue : spec.config.isQueue = true)
    {deadLetter : Option TopicState} {as : List (ThreadAction QueueCall Bool)}
    {s : Threads QueueRun QueueInstr}
    (hrun : exec (step S resolve deadLetterId) (start spec deadLetter) as = some s) :
    ∃ q, s.shared.topic.queue = some q ∧
      (∀ x ≤ s.shared.topic.headSeq, (s.shared.topic.index.live x).isSome →
        ∃! p, At q (workingSets s) x p) ∧
      ∀ x p, At q (workingSets s) x p → p = .leased ∨ p = .reclaim ∨ p = .delayed →
        x < q.claimCursor := by
  obtain ⟨line, q, h⟩ := exec_invariant _ (I := fun s => ∃ line q, Sorted line q s)
    (fun s a s' hs hstep => by obtain ⟨line, q, hs⟩ := hs; exact hs.step hstep)
    ⟨[], _, sorted_start hqueue deadLetter⟩ hrun
  refine ⟨q, h.queue, fun x hx hlive => ?_, fun x p hp hcase => ?_⟩
  · obtain ⟨p, hp⟩ := h.parted.exists_at hx hlive
    exact ⟨p, hp, fun p' hp' => h.parted.at_unique hp' hp⟩
  · refine h.parted.lt_of_at hp ?_
    rintro rfl
    simp at hcase

/-- A durable queue that diverts a job after one delivery. -/
def onceQueue : TopicSpec :=
  ⟨"jobs", 1, { topicType := .queue, durable := true, maxDeliveries := 1, deadLetter := some "dead" }, 0⟩

/-- A call of thread `t` and the results of its operations. -/
def call (t : Nat) (c : QueueCall) (oks : List Bool) : List (ThreadAction QueueCall Bool) :=
  .start t c :: oks.map (.run t)

def succeeds (n : Nat) : List Bool := List.replicate n true

/-- Two jobs are written and claimed, and an ack of both has deleted neither yet. -/
def ackInProgress : List (ThreadAction QueueCall Bool) :=
  call 1 (.write (List.replicate 2 (.plain none)) 0) (succeeds 7) ++
    call 1 (.claim [⟨"a", 2, none⟩] none 0) (succeeds 2) ++ call 2 (.ack "a" [1, 2] [] 1) (succeeds 2)

theorem queue_partition_ackInProgress :
    ∃ s q, exec (step Serde.identity (fun _ => (.null, none)) 2) (start onceQueue none) ackInProgress =
        some s ∧
      s.shared.topic.queue = some q ∧ (s.shared.topic.index.live 1).isSome ∧
      At q (workingSets s) 1 (.working 2) ∧ ∃! p, At q (workingSets s) 1 p := by
  obtain ⟨s, hs, hhead, hlive, hworking⟩ :
      ∃ s, exec (step Serde.identity (fun _ => (.null, none)) 2) (start onceQueue none) ackInProgress =
          some s ∧
        1 ≤ s.shared.topic.headSeq ∧ (s.shared.topic.index.live 1).isSome ∧ 1 ∈ workingSets s 2 :=
    ⟨_, rfl, by decide +kernel, by decide +kernel, by decide +kernel⟩
  obtain ⟨q, hq, hplaces, -⟩ := queue_partition rfl hs
  exact ⟨s, q, hs, hq, hlive, hworking, hplaces 1 hhead hlive⟩

end QueueRun

end Topics
