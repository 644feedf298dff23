import Topics.Lib.Threads
import Topics.TopicRun

/-!
# Eviction floors and their watermarks

`enforce_retention_hardened` plans from a snapshot of the index, waits for the fsync of an
`EvictWatermark` if TTL or the byte cap raised a floor, and only then commits the floors and
reclaims the front.  The calls of one topic run as threads; each step below is one section under
a lock, one atomic access, or one wait.
-/

namespace Topics

open Lib TopicState List Option

/-! ## The calls of one topic -/

structure FloorState where
  topic : TopicState
  /-- `evict_floor` and `expiry_floor` of the `EvictWatermark` frames fsynced so far. -/
  synced : List (Nat × Nat)
  /-- The thread that holds `append_lock`. -/
  locked : Option Nat
  nextTicket : Nat
  /-- The ticket whose turn it is to publish. -/
  turn : Nat
  /-- History: whether the byte cap raised `evict_floor` to its present value. -/
  byBytes : Bool

inductive FloorInstr where
  | lock
  | unlock
  /-- The entry of `enforce_retention_hardened`; `hard` is whether it waits for a watermark. -/
  | readHead (now : Int) (hard : Bool)
  | plan (now : Int) (head : Nat) (hard : Bool)
  | harden (plan : TopicState.RetentionAdvance) (byBytes : Bool) (head : Nat)
  | commit (plan : TopicState.RetentionAdvance) (byBytes : Bool) (head : Nat)
  | reclaim (head : Nat)
  | admitWrite (stored : List StoredRecord)
  | stage (stored : List StoredRecord)
  | publish (g : StagedAppend) (ticket : Nat)
  | takeBound (beforeSeq : Option Nat) (match_ : Option Filter) (now : Int)
  | awaitTurn (ticket : Nat)
  | select (beforeSeq : Option Nat) (match_ : Option Filter) (bound : Nat)
  | release
  | removeSeqs (seqs : List Nat)

/-- The steps of a pass up to and including the wait for its watermark. -/
def FloorInstr.planning : FloorInstr → Bool
  | .readHead .. => true
  | .plan .. => true
  | .harden .. => true
  | _ => false

/-- The calls on a topic.  `moved` are the jobs a claim pass moves to the dead-letter topic. -/
inductive FloorCall where
  | write (stored : List StoredRecord) (now : Int)
  | diff (now : Int)
  | claim (moved : List Nat) (now : Int)
  | ack (seq : Nat)
  | delete (beforeSeq : Option Nat) (match_ : Option Filter) (now : Int)

namespace FloorCall

/-- The code of a call; `stage` and `takeBound` go on with what follows their ticket. -/
def body : FloorCall → List FloorInstr
  | .write stored now =>
    [.readHead now true, .admitWrite stored, .lock, .stage stored, .readHead now true]
  | .diff now => [.readHead now true]
  | .claim moved now => .readHead now true :: moved.map fun q => .removeSeqs [q]
  | .ack seq => [.removeSeqs [seq]]
  | .delete beforeSeq match_ now =>
    [.lock, .readHead now true, .takeBound beforeSeq match_ now]

end FloorCall

/-- `ensure_disk_head_reserved` in memory, for the head a batch is about to publish. -/
def TopicState.reserveFor (b : TopicState) (g : StagedAppend) : TopicState :=
  if b.config.durabilityClass = .disk ∧ ¬ g.publishHead < b.reservedHead then
    b.setReservedHead (max g.publishHead b.reservedHead + diskHeadReserveAhead)
  else b

namespace FloorState

def init (spec : TopicSpec) : FloorState := ⟨spec.fresh, [], none, 0, 0, false⟩

/-- Whether the byte cap, rather than the record cap, raised the planned evict floor. -/
def raisedByBytes (b : TopicState) (now : Int) : Bool :=
  max b.floors.evictFloor b.capFloor < (b.planRetention now).evictFloor

/-- One step of thread `t`; `ok` is whether the fsync it waits for succeeds.  A failed one ends
the call and drops its lock guard. -/
def sem (s : FloorState) (t : Nat) (ok : Bool) : FloorInstr → Option (Outcome FloorState FloorInstr)
  | .lock => if s.locked = none then some (.next { s with locked := some t } []) else none
  | .unlock => if s.locked = some t then some (.next { s with locked := none } []) else none
  | .readHead now hard =>
    -- an `ephemeral` topic has no watermark to wait for
    let hard := hard && s.topic.config.usesPersistentRecordStore
    some (.next s (if s.topic.retentionIdle then [] else [.plan now s.topic.headSeq hard]))
  | .plan now head hard =>
    -- the head was read before the locks were taken
    let b := { s.topic with headSeq := head }
    let plan := b.planRetention now
    some (.next s
      [if plan.floorAdvanced then
        if plan.durableAdvance && hard then .harden plan (raisedByBytes b now) head
        else .commit plan (raisedByBytes b now) head
      else .reclaim head])
  | .harden plan byBytes head =>
    if ok then
      some (.next { s with synced := s.synced ++ [(plan.evictFloor, plan.expiryFloor)] }
        [.commit plan byBytes head])
    else some (.stop { s with locked := if s.locked = some t then none else s.locked })
  | .commit plan byBytes head =>
    some (.next
      { s with
        topic := s.topic.commitFloors plan
        byBytes := if s.topic.floors.evictFloor < plan.evictFloor then byBytes else s.byBytes }
      [.reclaim head])
  | .reclaim head => some (.next { s with topic := s.topic.reclaimFront head } [])
  | .admitWrite stored => some (if s.topic.refuses stored then .stop s else .next s [])
  | .stage stored =>
    some (.next
      { s with topic := (s.topic.stageAppend stored).1, nextTicket := s.nextTicket + 1 }
      [.unlock, .publish (s.topic.stageAppend stored).2 s.nextTicket])
  | .publish g ticket =>
    if s.turn = ticket then
      some (.next
        { s with topic := (s.topic.reserveFor g).publishStagedNoSeal g, turn := s.turn + 1 } [])
    else none
  | .takeBound beforeSeq match_ now =>
    some (.next { s with nextTicket := s.nextTicket + 1 }
      [.unlock, .awaitTurn s.nextTicket, .readHead now false,
        .select beforeSeq match_ (s.topic.headSeq + 1), .release])
  | .awaitTurn ticket => if s.turn = ticket then some (.next s []) else none
  | .select beforeSeq match_ bound =>
    some (.next { s with topic := s.topic.deleteSelected beforeSeq match_ (some bound) }
      [.reclaim s.topic.headSeq])
  | .release => some (.next { s with turn := s.turn + 1 } [])
  | .removeSeqs seqs => some (.next { s with topic := s.topic.deleteSeqs seqs } [])

def step (s : Threads FloorState FloorInstr) (a : ThreadAction FloorCall Bool) :
    Option (Threads FloorState FloorInstr) :=
  Threads.step FloorCall.body sem s a

def start (spec : TopicSpec) : Threads FloorState FloorInstr := ⟨init spec, fun _ => []⟩

/-! ## What is promised, and when -/

/-- A floor that TTL or the byte cap raised was on disk before. -/
structure DurablyRaised (s : FloorState) : Prop where
  evict : s.byBytes = true → ∃ w ∈ s.synced, s.topic.floors.evictFloor ≤ w.1
  expiry : 0 < s.topic.floors.expiryFloor → ∃ w ∈ s.synced, s.topic.floors.expiryFloor ≤ w.2

/-- TTL and the byte cap have nothing to do: the retained bytes are within the cap and the
oldest slot is not expired. -/
def WithinLimits (b : TopicState) (now : Int) : Prop :=
  (b.config.capBytes = 0 ∨ b.bytesRetained ≤ b.config.capBytes) ∧
    ∀ r ∈ b.index.records.head?, ttlExpired b.config.ttlMs now r.ts = false

instance (b : TopicState) (now : Int) : Decidable (WithinLimits b now) :=
  inferInstanceAs (Decidable ((_ ∨ _) ∧ _))

/-- The condition on a step: a pass without a watermark plans within the limits. -/
def PlansWithin (s : FloorState) (_ : Nat) : FloorInstr → Prop
  | .plan now _ false => WithinLimits s.topic now
  | _ => True

instance (s : FloorState) (t : Nat) : ∀ i, Decidable (PlansWithin s t i)
  | .plan now _ false => inferInstanceAs (Decidable (WithinLimits s.topic now))
  | .plan _ _ true | .lock | .unlock | .readHead .. | .harden .. | .commit .. | .reclaim ..
  | .admitWrite .. | .stage .. | .publish .. | .takeBound .. | .awaitTurn .. | .select ..
  | .release | .removeSeqs .. => isTrue trivial

variable {now : Int} {s s' : FloorState} {t head : Nat} {ok : Bool} {i : FloorInstr}
  {o : Outcome FloorState FloorInstr}

theorem durableAdvance_of_within {b : TopicState} (h : WithinLimits b now) :
    (b.planRetention now).durableAdvance = false := by
  obtain ⟨hbytes, hfirst⟩ := h
  rw [planRetention_durableAdvance, Bool.or_eq_false_iff]
  constructor
  · refine decide_eq_false (Nat.not_lt.mpr ?_)
    unfold ttlFloor
    split
    · rename_i httl
      cases hr : b.index.records with
      | nil => exact le_rfl
      | cons r rs =>
        rw [hr] at hfirst
        have hfresh := hfirst r rfl
        unfold ttlExpired at hfresh
        rw [ttlScan, if_neg]
        exact fun hexp => of_decide_eq_false hfresh ⟨httl, hexp⟩
    · exact le_rfl
  · refine decide_eq_false (Nat.not_lt.mpr ?_)
    unfold byteFloor
    rw [if_neg (by omega)]

/-! ## One step -/

/-- What a step does to the two floors: nothing, or it commits a plan. -/
inductive FloorsStep (s s' : FloorState) : FloorInstr → Prop where
  | keep (i : FloorInstr) (hev : s'.topic.floors.evictFloor = s.topic.floors.evictFloor)
      (hexp : s'.topic.floors.expiryFloor = s.topic.floors.expiryFloor)
      (hcause : s'.byBytes = s.byBytes) (hsync : s.synced <+: s'.synced) : FloorsStep s s' i
  | commit (plan : TopicState.RetentionAdvance) (byBytes : Bool) (head : Nat)
      (htopic : s'.topic = s.topic.commitFloors plan) (hsync : s'.synced = s.synced)
      (hcause : s'.byBytes =
        if s.topic.floors.evictFloor < plan.evictFloor then byBytes else s.byBytes) :
      FloorsStep s s' (.commit plan byBytes head)

theorem floorsStep_of_sem (h : sem s t ok i = some o) :
    FloorsStep s o.shared i := by
  have hsame : FloorsStep s s i := .keep i rfl rfl rfl (prefix_refl _)
  cases i with
  | lock | unlock =>
    obtain ⟨-, ⟨⟩⟩ := ite_none_right_eq_some.mp h
    exact .keep _ rfl rfl rfl (prefix_refl _)
  | readHead | plan =>
    cases h
    exact hsame
  | harden plan byBytes head =>
    simp only [sem] at h
    split at h
    · cases h
      exact .keep _ rfl rfl rfl (prefix_append _ _)
    · cases h
      exact .keep _ rfl rfl rfl (prefix_refl _)
  | commit plan byBytes head =>
    cases h
    exact .commit plan byBytes head rfl rfl rfl
  | reclaim | stage | takeBound | select | release | removeSeqs =>
    cases h
    exact .keep _ rfl rfl rfl (prefix_refl _)
  | admitWrite stored =>
    simp only [sem] at h
    split at h
    all_goals
      cases h
      exact hsame
  | publish g ticket =>
    obtain ⟨-, ⟨⟩⟩ := ite_none_right_eq_some.mp h
    have hfloors : ((s.topic.reserveFor g).publishStagedNoSeal g).floors = s.topic.floors := by
      unfold publishStagedNoSeal reserveFor
      split <;> split <;> rfl
    exact .keep _ (congrArg Floors.evictFloor hfloors) (congrArg Floors.expiryFloor hfloors) rfl
      (prefix_refl _)
  | awaitTurn ticket =>
    obtain ⟨-, ⟨⟩⟩ := ite_none_right_eq_some.mp h
    exact hsame

/-- **Floors only rise**, and no watermark is taken back. -/
theorem FloorsStep.rises (h : FloorsStep s s' i) :
    s.topic.floors.evictFloor ≤ s'.topic.floors.evictFloor ∧
      s.topic.floors.expiryFloor ≤ s'.topic.floors.expiryFloor ∧ s.synced <+: s'.synced := by
  cases h with
  | keep i hev hexp hcause hsync => exact ⟨hev.ge, hexp.ge, hsync⟩
  | commit plan byBytes head htopic hsync hcause =>
    have hle := floors_le_commitFloors s.topic plan
    rw [htopic, hsync]
    exact ⟨hle.evict, hle.expiry, prefix_refl _⟩

/-- A plan that may be committed: its watermark is on disk, or it needs none. -/
def Cleared (s : FloorState) : FloorInstr → Prop
  | .commit plan byBytes _ =>
    plan.floorAdvanced = true ∧
      (plan.durableAdvance = true → (plan.evictFloor, plan.expiryFloor) ∈ s.synced) ∧
      (plan.durableAdvance = false →
        byBytes = false ∧ plan.expiryFloor ≤ s.topic.floors.expiryFloor)
  | .harden plan _ _ => plan.floorAdvanced = true ∧ plan.durableAdvance = true
  | _ => True

theorem Cleared.mono {i j : FloorInstr} (hj : Cleared s j) (h : FloorsStep s s' i) :
    Cleared s' j := by
  obtain ⟨-, hexp, hsync⟩ := h.rises
  cases j with
  | commit plan byBytes head =>
    refine ⟨hj.1, fun hd => hsync.subset (hj.2.1 hd), fun hd => ?_⟩
    exact ⟨(hj.2.2 hd).1, (hj.2.2 hd).2.trans hexp⟩
  | harden => exact hj
  | _ => trivial

theorem DurablyRaised.step (h : DurablyRaised s) (hi : Cleared s i) (hstep : FloorsStep s s' i) :
    DurablyRaised s' := by
  cases hstep with
  | keep i hev hexp hcause hsync =>
    refine ⟨fun hb => ?_, fun hpos => ?_⟩
    · obtain ⟨w, hw, hle⟩ := h.evict (hcause ▸ hb)
      exact ⟨w, hsync.subset hw, hev.le.trans hle⟩
    · obtain ⟨w, hw, hle⟩ := h.expiry (hexp ▸ hpos)
      exact ⟨w, hsync.subset hw, hexp.le.trans hle⟩
  | commit plan byBytes head htopic hsync hcause =>
    obtain ⟨hadv, hdur, hplain⟩ := hi
    have hfloors : s'.topic.floors = { s.topic.floors with
        evictFloor := max s.topic.floors.evictFloor plan.evictFloor
        expiryFloor := max s.topic.floors.expiryFloor plan.expiryFloor } := by
      rw [htopic, commitFloors, if_pos hadv]
    have hdurable : ∀ {P : Prop}, (plan.durableAdvance = false → ¬ P) → P →
        (plan.evictFloor, plan.expiryFloor) ∈ s.synced := fun hno hp =>
      hdur (Bool.not_eq_false _ ▸ fun hd => hno hd hp)
    refine ⟨fun hb => ?_, fun hpos => ?_⟩ <;> rw [hfloors, hsync]
    · rw [hcause] at hb
      split at hb
      · rename_i hlt
        have hw := hdurable (fun hd => by rw [(hplain hd).1]; exact Bool.false_ne_true) hb
        exact ⟨_, hw, (max_eq_right hlt.le).le⟩
      · rename_i hle
        obtain ⟨w, hw, hw'⟩ := h.evict hb
        exact ⟨w, hw, (max_eq_left (not_lt.mp hle)).le.trans hw'⟩
    · by_cases hlt : s.topic.floors.expiryFloor < plan.expiryFloor
      · have hw := hdurable (fun hd => Nat.not_lt.mpr (hplain hd).2) hlt
        exact ⟨_, hw, (max_eq_right hlt.le).le⟩
      · have hmax := max_eq_left (not_lt.mp hlt)
        rw [hfloors, hmax] at hpos
        obtain ⟨w, hw, hw'⟩ := h.expiry hpos
        exact ⟨w, hw, hmax.le.trans hw'⟩

theorem cleared_commit_of_not_durable
    (hadv : ({ s.topic with headSeq := head }.planRetention now).floorAdvanced = true)
    (hd : ({ s.topic with headSeq := head }.planRetention now).durableAdvance = false) :
    Cleared s (.commit ({ s.topic with headSeq := head }.planRetention now)
      (raisedByBytes { s.topic with headSeq := head } now) head) := by
  obtain ⟨hexp, hev⟩ := planRetention_of_not_durable hd
  refine ⟨hadv, fun hd' => ?_, fun _ => ⟨decide_eq_false ?_, hexp.le⟩⟩
  · rw [hd] at hd'
    cases hd'
  · rw [hev]
    exact lt_irrefl _

theorem cleared_plan {hard : Bool} (hR : PlansWithin s t (.plan now head hard)) :
    let plan := { s.topic with headSeq := head }.planRetention now
    Cleared s
      (if plan.floorAdvanced then
        if plan.durableAdvance && hard then
          .harden plan (raisedByBytes { s.topic with headSeq := head } now) head
        else .commit plan (raisedByBytes { s.topic with headSeq := head } now) head
      else .reclaim head) := by
  simp only
  split
  · rename_i hadv
    split
    · rename_i hboth
      exact ⟨hadv, (Bool.and_eq_true_iff.mp hboth).1⟩
    · rename_i hboth
      refine cleared_commit_of_not_durable hadv ?_
      cases hard with
      | true => simpa using hboth
      | false => exact durableAdvance_of_within hR
  · trivial

theorem cleared_more {more : List FloorInstr} (hR : PlansWithin s t i) (hi : Cleared s i)
    (h : sem s t ok i = some (.next s' more)) : ∀ j ∈ more, Cleared s' j := by
  intro j hj
  cases i with
  | plan now head hard =>
    cases h
    cases mem_singleton.mp hj
    exact cleared_plan hR
  | harden plan byBytes head =>
    simp only [sem] at h
    split at h
    · cases h
      cases mem_singleton.mp hj
      refine ⟨hi.1, fun _ => mem_append_right _ mem_cons_self, fun hd => ?_⟩
      rw [hi.2] at hd
      cases hd
    · cases h
  | readHead now hard =>
    cases h
    split at hj
    · cases hj
    · cases mem_singleton.mp hj
      trivial
  -- the rest adds neither a commit nor a watermark
  | reclaim | release | removeSeqs =>
    cases h
    cases hj
  | commit | select =>
    cases h
    cases mem_singleton.mp hj
    trivial
  | stage | takeBound =>
    cases h
    simp only [mem_cons, not_mem_nil, or_false] at hj
    rcases hj with rfl | rfl | rfl | rfl | rfl <;> trivial
  | lock | unlock | publish | awaitTurn | admitWrite =>
    simp only [sem] at h
    split at h <;> cases h
    cases hj

/-- Every thread has only cleared steps before it. -/
def AllCleared (s : FloorState) (_ : Nat) (code : List FloorInstr) : Prop :=
  ∀ j ∈ code, Cleared s j

theorem allCleared_body (s : FloorState) (t : Nat) (c : FloorCall) : AllCleared s t c.body := by
  intro j hj
  cases c with
  | claim moved now =>
    rcases mem_cons.mp hj with rfl | hj
    · trivial
    · obtain ⟨q, -, rfl⟩ := mem_map.mp hj
      trivial
  | _ =>
    simp only [FloorCall.body, mem_cons, not_mem_nil, or_false] at hj
    rcases hj with rfl | rfl | rfl | rfl | rfl <;> trivial

/-- **Step lemma.** -/
theorem keeps_durablyRaised :
    Threads.Keeps PlansWithin DurablyRaised AllCleared sem := by
  intro s t ok i rest o hR hP hQ h
  have hstep := floorsStep_of_sem h
  have hi : Cleared s i := hQ i mem_cons_self
  refine ⟨hP.step hi hstep, fun j hj => ?_, fun t' code _ hcode j hj => (hcode j hj).mono hstep⟩
  cases o with
  | stop s' => exact (not_mem_nil hj).elim
  | next s' more =>
    rcases mem_append.mp hj with hj | hj
    · exact cleared_more hR hi h j hj
    · exact (hQ j (mem_cons_of_mem _ hj)).mono hstep

/-! ## Runs -/

theorem topic_of_planning (hi : i.planning = true) (h : sem s t ok i = some o) :
    o.shared.topic = s.topic := by
  cases i with
  | readHead | plan =>
    cases h
    rfl
  | harden plan byBytes head =>
    simp only [sem] at h
    split at h <;> cases h <;> rfl
  | _ => cases hi

theorem sem_harden_failed {plan : TopicState.RetentionAdvance} {byBytes : Bool}
    (h : sem s t false (.harden plan byBytes head) = some o) (rest : List FloorInstr) :
    o.shared.synced = s.synced ∧ o.code rest = [] := by
  simp only [sem] at h
  cases h
  exact ⟨rfl, rfl⟩

theorem floors_rise {s s' : Threads FloorState FloorInstr}
    {as : List (ThreadAction FloorCall Bool)} (hrun : exec step s as = some s') :
    s.shared.topic.floors.evictFloor ≤ s'.shared.topic.floors.evictFloor ∧
      s.shared.topic.floors.expiryFloor ≤ s'.shared.topic.floors.expiryFloor := by
  refine exec_invariant step (I := fun u : Threads FloorState FloorInstr =>
    s.shared.topic.floors.evictFloor ≤ u.shared.topic.floors.evictFloor ∧
      s.shared.topic.floors.expiryFloor ≤ u.shared.topic.floors.expiryFloor)
    (fun u a u' hu hstep => ?_) ⟨le_rfl, le_rfl⟩ hrun
  obtain ⟨t, c, -, -, rfl⟩ | ⟨t, ok, i, rest, o, -, -, ho, rfl⟩ :=
    Threads.step_cases FloorCall.body sem hstep
  · exact hu
  · obtain ⟨hev, hexp, -⟩ := (floorsStep_of_sem ho).rises
    exact ⟨hu.1.trans hev, hu.2.trans hexp⟩

/-- **Eviction is durable before it is visible**, in every interleaving in which the pass inside
a delete finds the topic within its limits: a floor that TTL or the byte cap raised has its
watermark on disk; a pass changes nothing of the topic before that, and its call ends when the
fsync fails; and from there on neither floor decreases. -/
theorem eviction_durable_before_visible {spec : TopicSpec}
    {as : List (ThreadAction FloorCall Bool)} {s : Threads FloorState FloorInstr}
    (halong : Along step (Threads.OnRun PlansWithin) (start spec) as)
    (hrun : exec step (start spec) as = some s) :
    DurablyRaised s.shared ∧
      (∀ t ok i rest s', s.code t = i :: rest → i.planning = true →
        step s (.run t ok) = some s' → s'.shared.topic = s.shared.topic) ∧
      (∀ t plan byBytes head rest s', s.code t = .harden plan byBytes head :: rest →
        step s (.run t false) = some s' →
          s'.shared.synced = s.shared.synced ∧ s'.code t = []) ∧
      ∀ bs s', exec step s bs = some s' →
        s.shared.topic.floors.evictFloor ≤ s'.shared.topic.floors.evictFloor ∧
          s.shared.topic.floors.expiryFloor ≤ s'.shared.topic.floors.expiryFloor := by
  have hinit : Threads.Holds DurablyRaised AllCleared (start spec) := by
    refine ⟨⟨fun hb => ?_, fun hpos => ?_⟩, fun t j hj => (not_mem_nil hj).elim⟩
    · cases hb
    · exact absurd hpos (lt_irrefl 0)
  have hs := Threads.invariant (fun s t c _ => allCleared_body s t c) keeps_durablyRaised hinit
    halong hrun
  refine ⟨hs.shared, ?_, ?_, fun bs s' hbs => floors_rise hbs⟩
  · intro t ok i rest s' hcode hi hstep
    simp only [step, Threads.step, hcode] at hstep
    obtain ⟨o, ho, rfl⟩ := map_eq_some_iff.mp hstep
    exact topic_of_planning hi ho
  · intro t plan byBytes head rest s' hcode hstep
    simp only [step, Threads.step, hcode] at hstep
    obtain ⟨o, ho, rfl⟩ := map_eq_some_iff.mp hstep
    obtain ⟨hsync, hstop⟩ := sem_harden_failed ho rest
    exact ⟨hsync, (Function.update_self t (o.code rest) s.code).trans hstop⟩

def twoBytes : TopicSpec := ⟨"jobs", 1, { durable := true, capBytes := 2 }, 0⟩

/-- `n` steps of thread `t`, every fsync of which succeeds. -/
def runs (t n : Nat) : List (ThreadAction FloorCall Bool) := List.replicate n (.run t true)

/-- Two writes, a reader whose fsync fails, the eviction of the first record behind the writer's
own watermark, and a delete of everything. -/
def evictedBehindWatermark : List (ThreadAction FloorCall Bool) :=
  .start 1 (.write [.plain none, .plain none] 0) :: runs 1 9 ++
  .start 1 (.write [.plain none] 0) :: runs 1 8 ++
  [.start 2 (.diff 0), .run 2 true, .run 2 true, .run 2 false] ++ runs 1 5 ++
  .start 2 (.delete (some 4) none 0) :: runs 2 13

theorem eviction_durable_before_visible_behindWatermark :
    ∃ s, exec step (start twoBytes) evictedBehindWatermark = some s ∧
      s.shared.byBytes = true ∧ s.shared.topic.floors.evictFloor = 1 ∧
      s.shared.synced = [(1, 0)] ∧ DurablyRaised s.shared := by
  have halong : Along step (Threads.OnRun PlansWithin) (start twoBytes) evictedBehindWatermark := by
    decide +kernel
  refine ⟨_, rfl, by decide +kernel, by decide +kernel, by decide +kernel, ?_⟩
  exact (eviction_durable_before_visible halong rfl).1

/-- A delete passes over two bytes and takes its bound while a third record is staged; that record
is published before the delete has its turn, whose pass then evicts without a watermark. -/
def publishedBetweenPasses : List (ThreadAction FloorCall Bool) :=
  .start 1 (.write [.plain none, .plain none] 0) :: runs 1 9 ++
  .start 1 (.write [.plain none] 0) :: runs 1 7 ++
  .start 2 (.delete (some 1) none 0) :: runs 2 6 ++ runs 1 1 ++ runs 2 4

theorem eviction_visible_before_durable :
    ∃ s, exec step (start twoBytes) publishedBetweenPasses = some s ∧
      s.shared.byBytes = true ∧ s.shared.topic.floors.evictFloor = 1 ∧ s.shared.synced = [] ∧
      ¬ DurablyRaised s.shared := by
  obtain ⟨s, hs, hb, hfloor, hnone⟩ :
      ∃ s, exec step (start twoBytes) publishedBetweenPasses = some s ∧
        s.shared.byBytes = true ∧ s.shared.topic.floors.evictFloor = 1 ∧ s.shared.synced = [] :=
    ⟨_, rfl, by decide +kernel, by decide +kernel, by decide +kernel⟩
  refine ⟨s, hs, hb, hfloor, hnone, fun h => ?_⟩
  obtain ⟨w, hw, -⟩ := h.evict hb
  rw [hnone] at hw
  cases hw

end FloorState

end Topics
