import Topics.DeadRecords
import Topics.DurableFloors

/-!
# The steps of a topic's calls

What the steps of `FloorState.sem` do, said once for the invariants of the modules that follow.
-/

namespace Topics

open Lib TopicState List Option Outcome

namespace FloorState

/-! ## Inversion -/

inductive TopicStep (b : TopicState) : FloorInstr → TopicState → Prop where
  | same (i : FloorInstr) : TopicStep b i b
  | commit (plan : TopicState.RetentionAdvance) (byBytes : Bool) (head : Nat) :
      TopicStep b (.commit plan byBytes head) (b.commitFloors plan)
  | reclaim (head : Nat) : TopicStep b (.reclaim head) (b.reclaimFront head)
  | stage (stored : List StoredRecord) : TopicStep b (.stage stored) (b.stageAppend stored).1
  | publish (g : StagedAppend) (ticket : Nat) :
      TopicStep b (.publish g ticket) ((b.reserveFor g).publishStagedNoSeal g)
  | select (beforeSeq : Option Nat) (match_ : Option Filter) (bound : Nat) :
      TopicStep b (.select beforeSeq match_ bound) (b.deleteSelected beforeSeq match_ (some bound))
  | removeSeqs (seqs : List Nat) : TopicStep b (.removeSeqs seqs) (b.deleteSeqs seqs)

variable {s : FloorState} {t : Nat} {ok : Bool} {i : FloorInstr} {o : Outcome FloorState FloorInstr}

theorem topicStep_of_sem (h : sem s t ok i = some o) :
    TopicStep s.topic i o.shared.topic := by
  cases i with
  | commit plan byBytes head =>
    cases h
    exact .commit plan byBytes head
  | reclaim head =>
    cases h
    exact .reclaim head
  | stage stored =>
    cases h
    exact .stage stored
  | publish g ticket =>
    obtain ⟨-, ⟨⟩⟩ := ite_none_right_eq_some.mp h
    exact .publish g ticket
  | select beforeSeq match_ bound =>
    cases h
    exact .select beforeSeq match_ bound
  | removeSeqs seqs =>
    cases h
    exact .removeSeqs seqs
  | readHead | plan | takeBound | release =>
    cases h
    exact .same _
  | lock | unlock | harden | admitWrite | awaitTurn =>
    simp only [sem] at h
    split at h <;> cases h
    all_goals exact .same _

theorem config_of_sem (h : sem s t ok i = some o) :
    o.shared.topic.config = s.topic.config := by
  have hstep := topicStep_of_sem h
  generalize o.shared.topic = b at hstep
  cases hstep with
  | same | reclaim | stage | select | removeSeqs => rfl
  | commit plan => exact (steady_commitFloors _ plan).config
  | publish g k =>
    unfold publishStagedNoSeal reserveFor
    split <;> split <;> rfl

theorem queue_of_sem (h : sem s t ok i = some o) :
    o.shared.topic.queue = s.topic.queue := by
  have hstep := topicStep_of_sem h
  generalize o.shared.topic = b at hstep
  cases hstep with
  | same | stage => rfl
  | commit plan => exact (steady_commitFloors _ plan).queue
  | reclaim head => exact (steady_reclaimFront _ head).queue
  | select beforeSeq match_ bound =>
    exact (steady_deleteSelected _ beforeSeq match_ _).queue
  | removeSeqs seqs => exact (steady_deleteSeqs _ seqs).queue
  | publish g =>
    unfold publishStagedNoSeal reserveFor
    split <;> split <;> rfl

inductive Goes (s : FloorState) : FloorInstr → List FloorInstr → Prop where
  | done (i : FloorInstr) : Goes s i []
  | plan (now : Int) (hard : Bool) : Goes s (.readHead now hard)
      [.plan now s.topic.headSeq (hard && s.topic.config.usesPersistentRecordStore)]
  | harden (now : Int) (head : Nat) (byBytes : Bool) : Goes s (.plan now head true)
      [.harden ({ s.topic with headSeq := head }.planRetention now) byBytes head]
  | commit (now : Int) (head : Nat) (hard byBytes : Bool) : Goes s (.plan now head hard)
      [.commit ({ s.topic with headSeq := head }.planRetention now) byBytes head]
  | reclaim (now : Int) (head : Nat) (hard : Bool) : Goes s (.plan now head hard) [.reclaim head]
  | hardened (plan : TopicState.RetentionAdvance) (byBytes : Bool) (head : Nat) :
      Goes s (.harden plan byBytes head) [.commit plan byBytes head]
  | committed (plan : TopicState.RetentionAdvance) (byBytes : Bool) (head : Nat) :
      Goes s (.commit plan byBytes head) [.reclaim head]
  | staged (stored : List StoredRecord) : Goes s (.stage stored)
      [.unlock, .publish (s.topic.stageAppend stored).2 s.nextTicket]
  | bounded (beforeSeq : Option Nat) (match_ : Option Filter) (now : Int) :
      Goes s (.takeBound beforeSeq match_ now)
        [.unlock, .awaitTurn s.nextTicket, .readHead now false,
          .select beforeSeq match_ (s.topic.headSeq + 1), .release]
  | selected (beforeSeq : Option Nat) (match_ : Option Filter) (bound : Nat) :
      Goes s (.select beforeSeq match_ bound) [.reclaim s.topic.headSeq]

theorem goes_of_sem {s s' : FloorState} {more : List FloorInstr}
    (h : sem s t ok i = some (.next s' more)) : Goes s i more := by
  cases i with
  | readHead now hard =>
    simp only [sem, some.injEq, next.injEq] at h
    rw [← h.2]
    split
    · exact .done _
    · exact .plan now hard
  | plan now head hard =>
    simp only [sem, some.injEq, next.injEq] at h
    rw [← h.2]
    split
    · split
      · rename_i hboth
        obtain ⟨-, rfl⟩ := Bool.and_eq_true_iff.mp hboth
        exact .harden now head _
      · exact .commit now head hard _
    · exact .reclaim now head hard
  | harden plan byBytes head =>
    simp only [sem] at h
    split at h <;> cases h
    exact .hardened plan byBytes head
  | commit plan byBytes head =>
    cases h
    exact .committed plan byBytes head
  | stage stored =>
    cases h
    exact .staged stored
  | takeBound beforeSeq match_ now =>
    cases h
    exact .bounded beforeSeq match_ now
  | select beforeSeq match_ bound =>
    cases h
    exact .selected beforeSeq match_ bound
  | reclaim | release | removeSeqs =>
    cases h
    exact .done _
  | lock | unlock | publish | awaitTurn | admitWrite =>
    simp only [sem] at h
    split at h <;> cases h
    exact .done _

end FloorState

/-! ## The line at the publish gate -/

/-- The batches in line lie behind the head one after the other, up to the tail.  An entry is the
thread with the ticket, and its batch if it is a write. -/
def Lined : List (Nat × Option StagedAppend) → Nat → Nat → Prop
  | [], head, tail => tail = head + 1
  | (_, some g) :: rest, head, tail => g.start = head + 1 ∧ Lined rest (head + g.count) tail
  | (_, none) :: rest, head, tail => Lined rest head tail

namespace Lined

variable {line : List (Nat × Option StagedAppend)} {head tail : Nat}

theorem push (h : Lined line head tail) (t : Nat) {g : StagedAppend} (hstart : g.start = tail) :
    Lined (line ++ [(t, some g)]) head (tail + g.count) := by
  induction line generalizing head with
  | nil =>
    have htail : tail = head + 1 := h
    refine ⟨hstart.trans htail, ?_⟩
    change tail + g.count = head + g.count + 1
    omega
  | cons e line ih =>
    obtain ⟨t', g'⟩ := e
    cases g' with
    | none => exact ih h
    | some g' => exact ⟨h.1, ih h.2⟩

theorem push_none (h : Lined line head tail) (t : Nat) : Lined (line ++ [(t, none)]) head tail := by
  induction line generalizing head with
  | nil => exact h
  | cons e line ih =>
    obtain ⟨t', g'⟩ := e
    cases g' with
    | none => exact ih h
    | some g' => exact ⟨h.1, ih h.2⟩

theorem head_lt (h : Lined line head tail) : head < tail := by
  induction line generalizing head with
  | nil =>
    have htail : tail = head + 1 := h
    omega
  | cons e line ih =>
    obtain ⟨t', g'⟩ := e
    cases g' with
    | none => exact ih h
    | some g' =>
      have := ih h.2
      omega

end Lined

theorem TopicState.publishStagedNoSeal_headSeq {b : TopicState} {g : StagedAppend}
    (hstart : g.start = b.headSeq + 1) :
    (b.publishStagedNoSeal g).headSeq = b.headSeq + g.count := by
  unfold publishStagedNoSeal StagedAppend.publishHead
  split
  · omega
  · simp only [hstart]
    omega

@[simp] theorem TopicState.reserveFor_index (b : TopicState) (g : StagedAppend) :
    (b.reserveFor g).index = b.index := by
  unfold reserveFor
  split <;> rfl

@[simp] theorem TopicState.reserveFor_headSeq (b : TopicState) (g : StagedAppend) :
    (b.reserveFor g).headSeq = b.headSeq := by
  unfold reserveFor
  split <;> rfl

namespace FloorState

structure Gated (line : List (Nat × Option StagedAppend)) (s : FloorState) : Prop where
  tickets : s.nextTicket = s.turn + line.length
  lined : Lined line s.topic.headSeq s.topic.index.tail

/-- The line after a step of thread `t`. -/
def nextLine (line : List (Nat × Option StagedAppend)) (s : FloorState) (t : Nat) :
    FloorInstr → List (Nat × Option StagedAppend)
  | .stage stored => line ++ [(t, some (s.topic.stageAppend stored).2)]
  | .takeBound .. => line ++ [(t, none)]
  | .publish .. | .release => line.tail
  | _ => line

def Ticketed : FloorInstr → Prop
  | .stage .. | .takeBound .. | .publish .. | .awaitTurn .. | .release => True
  | _ => False

/-- The tickets in the code of thread `t`: it takes one, waits with one, or has its turn. -/
inductive TicketCode (line : List (Nat × Option StagedAppend)) (turn t : Nat) :
    List FloorInstr → Prop where
  | free {code : List FloorInstr} (h : ∀ i ∈ code, ¬ Ticketed i) : TicketCode line turn t code
  | stages {pre post : List FloorInstr} (stored : List StoredRecord)
      (hpre : ∀ i ∈ pre, ¬ Ticketed i) (hpost : ∀ i ∈ post, ¬ Ticketed i) :
      TicketCode line turn t (pre ++ .stage stored :: post)
  | bounds {pre post : List FloorInstr} (beforeSeq : Option Nat) (match_ : Option Filter)
      (now : Int) (hpre : ∀ i ∈ pre, ¬ Ticketed i) (hpost : ∀ i ∈ post, ¬ Ticketed i) :
      TicketCode line turn t (pre ++ .takeBound beforeSeq match_ now :: post)
  | publishes {pre post : List FloorInstr} (g : StagedAppend) (n : Nat)
      (hline : (line)[n]? = some (t, some g)) (hpre : ∀ i ∈ pre, ¬ Ticketed i)
      (hpost : ∀ i ∈ post, ¬ Ticketed i) :
      TicketCode line turn t (pre ++ .publish g (turn + n) :: post)
  | waits {pre mid post : List FloorInstr} (n : Nat) (hline : (line)[n]? = some (t, none))
      (hpre : ∀ i ∈ pre, ¬ Ticketed i) (hmid : ∀ i ∈ mid, ¬ Ticketed i) (hpost : ∀ i ∈ post, ¬ Ticketed i) :
      TicketCode line turn t (pre ++ .awaitTurn (turn + n) :: (mid ++ .release :: post))
  | holds {mid post : List FloorInstr} (hline : (line)[0]? = some (t, none))
      (hmid : ∀ i ∈ mid, ¬ Ticketed i) (hpost : ∀ i ∈ post, ¬ Ticketed i) :
      TicketCode line turn t (mid ++ .release :: post)

section Gate

variable {line : List (Nat × Option StagedAppend)} {s : FloorState} {t : Nat} {ok : Bool}
  {i : FloorInstr} {rest more : List FloorInstr} {o : Outcome FloorState FloorInstr}

theorem not_ticketed_more (h : ¬ Ticketed i) (hgo : Goes s i more) : ∀ j ∈ more, ¬ Ticketed j := by
  intro j hj
  cases hgo with
  | done => cases hj
  | plan | harden | commit | reclaim | hardened | committed | selected =>
    cases mem_singleton.mp hj
    exact id
  | staged | bounded => exact absurd trivial h

theorem gate_of_not_ticketed (h : ¬ Ticketed i) (hsem : sem s t ok i = some o) :
    o.shared.turn = s.turn ∧ o.shared.nextTicket = s.nextTicket ∧
      o.shared.topic.headSeq = s.topic.headSeq ∧
      o.shared.topic.index.tail = s.topic.index.tail := by
  cases i with
  | commit plan byBytes head =>
    cases hsem
    have hsteady := steady_commitFloors s.topic plan
    exact ⟨rfl, rfl, hsteady.headSeq, hsteady.tail⟩
  | reclaim head =>
    cases hsem
    exact ⟨rfl, rfl, rfl, tail_reclaimFront _ _⟩
  | select beforeSeq match_ bound =>
    cases hsem
    have hsteady := steady_deleteSelected s.topic beforeSeq match_ (some bound)
    exact ⟨rfl, rfl, hsteady.headSeq, hsteady.tail⟩
  | removeSeqs seqs =>
    cases hsem
    have hsteady := steady_deleteSeqs s.topic seqs
    exact ⟨rfl, rfl, hsteady.headSeq, hsteady.tail⟩
  | readHead | plan =>
    cases hsem
    exact ⟨rfl, rfl, rfl, rfl⟩
  | lock | unlock | harden | admitWrite =>
    simp only [sem] at hsem
    split at hsem <;> cases hsem
    all_goals exact ⟨rfl, rfl, rfl, rfl⟩
  | stage | takeBound | publish | awaitTurn | release => exact absurd trivial h

theorem nextLine_of_not_ticketed (h : ¬ Ticketed i) : nextLine line s t i = line := by
  cases i with
  | stage | takeBound | publish | awaitTurn | release => exact absurd trivial h
  | _ => rfl

variable {code pre post : List FloorInstr} {e : Nat × Option StagedAppend} {j : FloorInstr}
  {b b' : TopicState}

theorem TicketCode.longer {line' : List (Nat × Option StagedAppend)} {turn t : Nat}
    (hpre : line <+: line') (h : TicketCode line turn t code) :
    TicketCode line' turn t code := by
  have hget : ∀ {n e}, (line)[n]? = some e → line'[n]? = some e := fun {n e} hn => by
    obtain ⟨back, rfl⟩ := hpre
    rw [getElem?_append_left (getElem?_eq_some_iff.mp hn).1]
    exact hn
  cases h with
  | free h => exact .free h
  | stages stored hpre hpost => exact .stages stored hpre hpost
  | bounds beforeSeq match_ now hpre hpost => exact .bounds beforeSeq match_ now hpre hpost
  | publishes g n hline hpre hpost => exact .publishes g n (hget hline) hpre hpost
  | waits n hline hpre hmid hpost => exact .waits n (hget hline) hpre hmid hpost
  | holds hline hmid hpost => exact .holds (hget hline) hmid hpost

theorem TicketCode.shorter {turn t : Nat} (hne : t ≠ e.1) (h : TicketCode (e :: line) turn t code) :
    TicketCode line (turn + 1) t code := by
  -- the place of another thread is not the first
  have hplace : ∀ {n g}, (e :: line)[n]? = some (t, g) → ∃ m, n = m + 1 ∧ (line)[m]? = some (t, g) := by
    intro n g hn
    cases n with
    | zero =>
      cases hn
      exact absurd rfl hne
    | succ m => exact ⟨m, rfl, hn⟩
  cases h with
  | free h => exact .free h
  | stages stored hpre hpost => exact .stages stored hpre hpost
  | bounds beforeSeq match_ now hpre hpost => exact .bounds beforeSeq match_ now hpre hpost
  | publishes g n hline hpre hpost =>
    obtain ⟨m, rfl, hm⟩ := hplace hline
    rw [show turn + (m + 1) = turn + 1 + m by omega]
    exact .publishes g m hm hpre hpost
  | waits n hline hpre hmid hpost =>
    obtain ⟨m, rfl, hm⟩ := hplace hline
    rw [show turn + (m + 1) = turn + 1 + m by omega]
    exact .waits m hm hpre hmid hpost
  | holds hline hmid hpost =>
    obtain ⟨m, hm, -⟩ := hplace hline
    cases hm

theorem eq_cons_of_not_ticketed (hi : ¬ Ticketed i) (hcode : i :: rest = pre ++ j :: post)
    (hj : Ticketed j) :
    ∃ pre', pre = i :: pre' ∧ rest = pre' ++ j :: post := by
  cases pre with
  | nil =>
    cases hcode
    exact absurd hj hi
  | cons k pre =>
    cases hcode
    exact ⟨pre, rfl, rfl⟩

/-- **The code of the thread that steps**, as long as it neither takes a ticket nor has one that
is due. -/
theorem TicketCode.step_of_not_ticketed (hi : ¬ Ticketed i)
    (hc : TicketCode line s.turn t (i :: rest)) (hsem : sem s t ok i = some o) :
    TicketCode line s.turn t (o.code rest) := by
  cases o with
  | stop s' => exact .free (forall_mem_nil _)
  | next s' more =>
    have hmore := not_ticketed_more hi (goes_of_sem hsem)
    -- what a step adds goes in front of the ticketed step
    have hfront : ∀ pre : List FloorInstr, (∀ j ∈ i :: pre, ¬ Ticketed j) →
        ∀ j ∈ more ++ pre, ¬ Ticketed j := fun pre hpre =>
      forall_mem_append.mpr ⟨hmore, fun j hj => hpre j (mem_cons_of_mem i hj)⟩
    change TicketCode line s.turn t (more ++ rest)
    generalize hcode : i :: rest = code at hc
    cases hc with
    | free h =>
      subst hcode
      exact .free (hfront rest h)
    | stages stored hpre hpost =>
      obtain ⟨pre, rfl, rfl⟩ := eq_cons_of_not_ticketed hi hcode trivial
      rw [← append_assoc]
      exact .stages stored (hfront pre hpre) hpost
    | bounds beforeSeq match_ now hpre hpost =>
      obtain ⟨pre, rfl, rfl⟩ := eq_cons_of_not_ticketed hi hcode trivial
      rw [← append_assoc]
      exact .bounds beforeSeq match_ now (hfront pre hpre) hpost
    | publishes g n hline hpre hpost =>
      obtain ⟨pre, rfl, rfl⟩ := eq_cons_of_not_ticketed hi hcode trivial
      rw [← append_assoc]
      exact .publishes g n hline (hfront pre hpre) hpost
    | waits n hline hpre hmid hpost =>
      obtain ⟨pre, rfl, rfl⟩ := eq_cons_of_not_ticketed hi hcode trivial
      rw [← append_assoc]
      exact .waits n hline (hfront pre hpre) hmid hpost
    | holds hline hmid hpost =>
      obtain ⟨mid, rfl, rfl⟩ := eq_cons_of_not_ticketed hi hcode trivial
      rw [← append_assoc]
      exact .holds hline (hfront mid hmid) hpost

theorem eq_of_ticketed (hi : Ticketed i) (hpre : ∀ k ∈ pre, ¬ Ticketed k)
    (hcode : i :: rest = pre ++ j :: post) :
    i = j ∧ rest = post := by
  cases pre with
  | nil =>
    cases hcode
    exact ⟨rfl, rfl⟩
  | cons k pre =>
    cases hcode
    exact absurd hi (hpre _ mem_cons_self)

/-- What the code of a thread tells about its first step, if that is a ticketed one. -/
def FirstTicket (line : List (Nat × Option StagedAppend)) (turn t : Nat) (rest : List FloorInstr) :
    FloorInstr → Prop
  | .stage _ | .takeBound .. => ∀ i ∈ rest, ¬ Ticketed i
  | .publish g k => (∃ n, k = turn + n ∧ (line)[n]? = some (t, some g)) ∧ ∀ i ∈ rest, ¬ Ticketed i
  | .awaitTurn k => (∃ n, k = turn + n ∧ (line)[n]? = some (t, none)) ∧
      ∃ mid post, rest = mid ++ .release :: post ∧ (∀ i ∈ mid, ¬ Ticketed i) ∧
        ∀ i ∈ post, ¬ Ticketed i
  | .release => (line)[0]? = some (t, none) ∧ ∀ i ∈ rest, ¬ Ticketed i
  | _ => True

theorem TicketCode.first {turn : Nat} (hc : TicketCode line turn t (i :: rest))
    (hi : Ticketed i) : FirstTicket line turn t rest i := by
  generalize hcode : i :: rest = code at hc
  cases hc with
  | free h =>
    subst hcode
    exact absurd hi (h i mem_cons_self)
  | stages stored hpre hpost | bounds beforeSeq match_ now hpre hpost =>
    obtain ⟨rfl, rfl⟩ := eq_of_ticketed hi hpre hcode
    exact hpost
  | publishes g n hline hpre hpost =>
    obtain ⟨rfl, rfl⟩ := eq_of_ticketed hi hpre hcode
    exact ⟨⟨n, rfl, hline⟩, hpost⟩
  | waits n hline hpre hmid hpost =>
    obtain ⟨rfl, rfl⟩ := eq_of_ticketed hi hpre hcode
    exact ⟨⟨n, rfl, hline⟩, _, _, rfl, hmid, hpost⟩
  | holds hline hmid hpost =>
    obtain ⟨rfl, rfl⟩ := eq_of_ticketed hi hmid hcode
    exact ⟨hline, hpost⟩

theorem eq_cons_of_first (h : (line)[0]? = some e) :
    ∃ line', line = e :: line' := by
  cases line with
  | nil => cases h
  | cons e' line' =>
    cases h
    exact ⟨line', rfl⟩

/-- **The publish gate.**  Every step keeps the batches in line, and every thread's place. -/
theorem Gated.step (hg : Gated line s) (hc : TicketCode line s.turn t (i :: rest))
    (hsem : sem s t ok i = some o) :
    Gated (nextLine line s t i) o.shared ∧
      TicketCode (nextLine line s t i) o.shared.turn t (o.code rest) ∧
      ∀ t' code, t' ≠ t → TicketCode line s.turn t' code →
        TicketCode (nextLine line s t i) o.shared.turn t' code := by
  by_cases hi : Ticketed i
  · have hfirst := hc.first hi
    cases i with
    | stage stored =>
      cases hsem
      refine ⟨⟨?_, ?_⟩, ?_, fun _ _ _ h => h.longer (prefix_append _ _)⟩
      · simp only [nextLine, shared_next, length_append, length_singleton, hg.tickets]
        omega
      · have htail : (s.topic.stageAppend stored).1.index.tail =
            s.topic.index.tail + (s.topic.stageAppend stored).2.count := TopicIndex.tail_pushAll ..
        simp only [nextLine, shared_next, htail]
        exact hg.lined.push t rfl
      · -- the new ticket is the last in line
        have hlast : (nextLine line s t (.stage stored))[line.length]? =
            some (t, some (s.topic.stageAppend stored).2) := getElem?_concat_length ..
        rw [show s.nextTicket = s.turn + line.length from hg.tickets]
        exact @TicketCode.publishes _ _ _ [.unlock] rest _ line.length hlast (by simp [Ticketed]) hfirst
    | takeBound beforeSeq match_ now =>
      cases hsem
      refine ⟨⟨?_, hg.lined.push_none t⟩, ?_, fun _ _ _ h => h.longer (prefix_append _ _)⟩
      · simp only [nextLine, shared_next, length_append, length_singleton, hg.tickets]
        omega
      · have hlast : (nextLine line s t (.takeBound beforeSeq match_ now))[line.length]? =
            some (t, none) := getElem?_concat_length ..
        rw [show s.nextTicket = s.turn + line.length from hg.tickets]
        exact @TicketCode.waits _ _ _ [.unlock]
          [.readHead now false, .select beforeSeq match_ (s.topic.headSeq + 1)] rest line.length
          hlast (by simp [Ticketed]) (by simp [Ticketed]) hfirst
    | publish g k =>
      obtain ⟨⟨n, rfl, hline⟩, hrest⟩ := hfirst
      simp only [sem] at hsem
      split at hsem
      · rename_i hturn
        obtain rfl : n = 0 := by omega
        cases hsem
        obtain ⟨line', rfl⟩ := eq_cons_of_first hline
        refine ⟨⟨?_, ?_⟩, .free hrest, fun t' _ hne h => h.shorter hne⟩
        · simp only [nextLine, shared_next, tail_cons, hg.tickets, length_cons]
          omega
        · obtain ⟨hstart, hlined⟩ := hg.lined
          have hhead : ((s.topic.reserveFor g).publishStagedNoSeal g).headSeq =
              s.topic.headSeq + g.count := by
            rw [publishStagedNoSeal_headSeq (by simpa using hstart),
              reserveFor_headSeq]
          simp only [nextLine, shared_next, tail_cons, hhead,
            publishStagedNoSeal_index, reserveFor_index]
          exact hlined
      · cases hsem
    | awaitTurn k =>
      obtain ⟨⟨n, rfl, hline⟩, mid, post, rfl, hmid, hpost⟩ := hfirst
      simp only [sem] at hsem
      split at hsem
      · rename_i hturn
        obtain rfl : n = 0 := by omega
        cases hsem
        exact ⟨hg, .holds hline hmid hpost, fun _ _ _ h => h⟩
      · cases hsem
    | release =>
      obtain ⟨hline, hrest⟩ := hfirst
      cases hsem
      obtain ⟨line', rfl⟩ := eq_cons_of_first hline
      refine ⟨⟨?_, hg.lined⟩, .free hrest, fun t' _ hne h => h.shorter hne⟩
      simp only [nextLine, shared_next, tail_cons, hg.tickets, length_cons]
      omega
    | _ => exact hi.elim
  · obtain ⟨hturn, hnext, hhead, htail⟩ := gate_of_not_ticketed hi hsem
    rw [nextLine_of_not_ticketed hi, hturn]
    refine ⟨⟨?_, ?_⟩, hc.step_of_not_ticketed hi hsem, fun _ _ _ h => h⟩
    · rw [hturn, hnext]
      exact hg.tickets
    · rw [hhead, htail]
      exact hg.lined

theorem ticketCode_body (line : List (Nat × Option StagedAppend)) (turn t : Nat) (c : FloorCall) :
    TicketCode line turn t c.body := by
  cases c with
  | write stored now =>
    exact @TicketCode.stages _ _ _ [.readHead now true, .admitWrite stored, .lock] _ stored
      (by simp [Ticketed]) (by simp [Ticketed])
  | diff | ack => exact .free (by simp [FloorCall.body, Ticketed])
  | claim moved now =>
    refine .free fun i hi => ?_
    rcases mem_cons.mp hi with rfl | hi
    · exact id
    · obtain ⟨q, -, rfl⟩ := mem_map.mp hi
      exact id
  | delete beforeSeq match_ now =>
    exact @TicketCode.bounds _ _ _ [.lock, .readHead now true] _ beforeSeq match_ now
      (by simp [Ticketed]) (forall_mem_nil _)

theorem gated_init (spec : TopicSpec) : Gated [] (init spec) := ⟨rfl, rfl⟩

/-! ## What every step respects -/

/-- Head and tail only grow, and a record becomes live only at the tail. -/
structure Onward (b b' : TopicState) : Prop where
  head : b.headSeq ≤ b'.headSeq
  tail : b.index.tail ≤ b'.index.tail
  live : ∀ q r, b'.index.live q = some r → b.index.live q = some r ∨ b.index.tail ≤ q

theorem Onward.of_steady (hsteady : b.Steady b') (h : b.Shrinks b') :
    Onward b b' :=
  ⟨hsteady.headSeq.ge, hsteady.tail.ge, fun q r hq => .inl (h q r hq)⟩

theorem Onward.trans {b b' b'' : TopicState} (h : Onward b b') (h' : Onward b' b'') :
    Onward b b'' :=
  ⟨h.head.trans h'.head, h.tail.trans h'.tail, fun q r hq =>
    (h'.live q r hq).elim (h.live q r) fun hle => .inr (h.tail.trans hle)⟩

theorem onward_of_sem (hg : Gated line s) (hc : TicketCode line s.turn t (i :: rest))
    (hsem : sem s t ok i = some o) : Onward s.topic o.shared.topic := by
  have hstep := topicStep_of_sem hsem
  generalize htopic : o.shared.topic = b at hstep
  cases hstep with
  | same => exact .of_steady (.refl _) (.refl _)
  | commit plan =>
    exact .of_steady (steady_commitFloors _ plan) (shrinks_commitFloors _ plan)
  | reclaim head =>
    exact .of_steady (steady_reclaimFront _ head) (shrinks_reclaimFront _ head)
  | select beforeSeq match_ bound =>
    exact .of_steady (steady_deleteSelected _ beforeSeq match_ _)
      (shrinks_deleteSelected _ beforeSeq match_ _)
  | removeSeqs seqs =>
    exact .of_steady (steady_deleteSeqs _ seqs) (shrinks_deleteSeqs _ seqs)
  | stage stored =>
    refine ⟨le_rfl, ?_, fun q r hq => ?_⟩
    · change _ ≤ (s.topic.index.pushAll stored).tail
      rw [TopicIndex.tail_pushAll]
      exact Nat.le_add_right _ _
    · change (s.topic.index.pushAll stored).live q = some r at hq
      by_cases hlt : q < s.topic.index.tail
      · rw [TopicIndex.live_pushAll, if_pos hlt] at hq
        exact .inl hq
      · exact .inr (not_lt.mp hlt)
  | publish g k =>
    have hhead : s.topic.headSeq ≤ o.shared.topic.headSeq := by
      obtain ⟨⟨n, rfl, hline⟩, -⟩ := hc.first trivial
      simp only [sem] at hsem
      split at hsem
      · rename_i hturn
        obtain rfl : n = 0 := by omega
        cases hsem
        obtain ⟨line', rfl⟩ := eq_cons_of_first hline
        have hstart : g.start = (s.topic.reserveFor g).headSeq + 1 := by simpa using hg.lined.1
        rw [shared_next, publishStagedNoSeal_headSeq hstart,
          reserveFor_headSeq]
        exact Nat.le_add_right _ _
      · cases hsem
    rw [htopic] at hhead
    refine ⟨hhead, ?_, fun q r hq => ?_⟩
    · rw [publishStagedNoSeal_index, reserveFor_index]
    · rw [publishStagedNoSeal_index, reserveFor_index] at hq
      exact .inl hq

end Gate

/-! ## Runs -/

variable {s s' : Threads FloorState FloorInstr} {as bs : List (ThreadAction FloorCall Bool)}

theorem onward_run {line : List (Nat × Option StagedAppend)}
    (hs : Threads.Holds (Gated line) (fun s t => TicketCode line s.turn t) s)
    (hrun : exec step s as = some s') :
    (∃ line', Threads.Holds (Gated line') (fun s t => TicketCode line' s.turn t) s') ∧
      Onward s.shared.topic s'.shared.topic := by
  refine exec_invariant step (I := fun s' => (∃ line, Threads.Holds (Gated line)
    (fun s t => TicketCode line s.turn t) s') ∧ Onward s.shared.topic s'.shared.topic) ?_
    ⟨⟨line, hs⟩, .of_steady (.refl _) (.refl _)⟩ hrun
  rintro s₁ a s₂ ⟨⟨line, hs₁⟩, hon⟩ hstep
  obtain ⟨t, c, rfl, -, rfl⟩ | ⟨t, ok, i, rest, o, rfl, hcode, ho, rfl⟩ :=
    Threads.step_cases FloorCall.body sem hstep
  · exact ⟨⟨line, hs₁.start (ticketCode_body line _ t c)⟩, hon⟩
  · have hticket := hs₁.code t
    rw [hcode] at hticket
    obtain ⟨hgated, hown, hothers⟩ := hs₁.shared.step hticket ho
    exact ⟨⟨_, hs₁.run hgated hown hothers⟩, hon.trans (onward_of_sem hs₁.shared hticket ho)⟩

def oneByte : List (ThreadAction FloorCall Bool) := .start 1 (.write [.plain none] 0) :: runs 1 9

/-- A write that evicts the record of `oneByte` while a reader is about to make its own pass. -/
def evictingWrite : List (ThreadAction FloorCall Bool) :=
  .start 2 (.diff 0) :: .start 1 (.write [.plain none, .plain none] 0) :: runs 2 1 ++ runs 1 13

end FloorState

end Topics
