import Topics.ClaimCoordinator

/-!
# Where the claims are

A claim on its way through the coordinator is in one place: its caller looks for a cohort, a cohort
has gathered it, the leader has drained it, or it has been passed to the pool.  The history variable
`place` says which, and the lists in the shared state and in the hands of the threads agree with it.
-/

namespace Topics

open Lib Function PendingClaimer List Coordinator

/-! ## Every claim is in one place -/

namespace Coordinator

variable {s s' : Coordinator} {t t' : Nat}

/-- A pending claimer that belongs to its claim, which is at `place`. -/
structure Waits (s : Coordinator) (place : ClaimPlace) (p : PendingClaimer) : Prop where
  issued : p.reply < s.nextReply
  place : s.place p.reply = place
  claimer : p.claimer = (s.asked p.reply).claimer

variable {place : ClaimPlace} {p : PendingClaimer} {c : Coalesced} {k : Nat} {members : List Nat}
  {task : PoolTask}

theorem Waits.of_eq (h : s.Waits place p) (hnext : s'.nextReply = s.nextReply)
    (hplace : s'.place = s.place) (hasked : s'.asked = s.asked) :
    s'.Waits place p :=
  ⟨hnext ▸ h.issued, hplace ▸ h.place, hasked ▸ h.claimer⟩

/-- Where the claims are that no thread has in its hands. -/
structure Seats (s : Coordinator) : Prop where
  gathered : ∀ h, ∀ p ∈ (s.cohorts h).claimers, s.Waits (.gathered h) p
  once : ∀ h, ((s.cohorts h).claimers.map reply).Nodup
  formed : ∀ h, s.forming = some h → h < s.nextCohort
  freshCohort : ∀ h, s.nextCohort ≤ h → s.cohorts h = {}
  passed : ∀ k task, s.tasks k = some task →
    task.claimers = task.members.map (fun id => (s.asked id).claimer) ∧ task.members.Nodup ∧
      ∀ id ∈ task.members, id < s.nextReply ∧ s.place id = .passed k
  freshTask : ∀ k, s.nextTask ≤ k → s.tasks k = none

/-- A claim in the hands of thread `t` is the one that was asked for. -/
structure Issued (s : Coordinator) (t : Nat) (c : Coalesced) : Prop where
  lt : c.reply < s.nextReply
  caller : s.caller c.reply = t
  claimer : c.claimer = (s.asked c.reply).claimer
  leaseMs : c.leaseMs = (s.asked c.reply).leaseMs

/-- Task `k` serves the claims `members`. -/
def Serves (s : Coordinator) (k : Nat) (members : List Nat) (leaseMs : Option Nat) : Prop :=
  ∃ task, s.tasks k = some task ∧ task.members = members ∧ task.leaseMs = leaseMs

/-- What a thread in the middle of a claim relies on. -/
def Seated (s : Coordinator) (t : Nat) : ClaimInstr → Prop
  | .enter _ => True
  | .greedy c | .lookup c => s.Issued t c ∧ s.place c.reply = .calling
  | .join c h | .forget c h => s.Issued t c ∧ s.place c.reply = .calling ∧ h < s.nextCohort
  | .direct c k => s.Issued t c ∧ s.Serves k [c.reply] c.leaseMs
  | .window c h | .drain c h => s.Issued t c ∧ h < s.nextCohort
  | .remove c _ drained | .spawn c drained =>
    s.Issued t c ∧ (∀ p ∈ drained, s.Waits (.drained t) p) ∧
      (drained.map reply).Nodup
  | .running c k drained =>
    s.Issued t c ∧ s.Serves k (drained.map reply) c.leaseMs
  | .send c _ _ | .recv c | .ready c _ => s.Issued t c

/-- What a step of thread `t` leaves to the other threads. -/
structure Keeps (t : Nat) (s s' : Coordinator) : Prop where
  nextReply : s.nextReply ≤ s'.nextReply
  nextCohort : s.nextCohort ≤ s'.nextCohort
  asked : ∀ id, id < s.nextReply → s'.asked id = s.asked id
  caller : ∀ id, id < s.nextReply → s'.caller id = s.caller id
  calling : ∀ id, id < s.nextReply → s.caller id ≠ t → s.place id = .calling →
    s'.place id = .calling
  drained : ∀ id t', id < s.nextReply → t' ≠ t → s.place id = .drained t' →
    s'.place id = .drained t'
  passed : ∀ id k, id < s.nextReply → s.place id = .passed k → s'.place id = .passed k
  tasks : ∀ k task, s.tasks k = some task → ∃ task', s'.tasks k = some task' ∧
    task'.members = task.members ∧ task'.leaseMs = task.leaseMs ∧
      (task.outcome ≠ none → task' = task)

theorem Keeps.refl (t : Nat) (s : Coordinator) : Keeps t s s :=
  ⟨le_rfl, le_rfl, fun _ _ => rfl, fun _ _ => rfl, fun _ _ _ h => h, fun _ _ _ _ h => h,
    fun _ _ _ h => h, fun _ task h => ⟨task, h, rfl, rfl, fun _ => rfl⟩⟩

theorem Keeps.issued (h : Keeps t s s') (hc : s.Issued t' c) : s'.Issued t' c := by
  refine ⟨hc.lt.trans_le h.nextReply, ?_, ?_, ?_⟩
  · rw [h.caller _ hc.lt]
    exact hc.caller
  · rw [h.asked _ hc.lt]
    exact hc.claimer
  · rw [h.asked _ hc.lt]
    exact hc.leaseMs

theorem Keeps.serves (h : Keeps t s s') {leaseMs : Option Nat} (hk : s.Serves k members leaseMs) :
    s'.Serves k members leaseMs := by
  obtain ⟨task, htask, rfl, rfl⟩ := hk
  obtain ⟨task', htask', hmembers, hlease, -⟩ := h.tasks k task htask
  exact ⟨task', htask', hmembers, hlease⟩

theorem Keeps.waits (h : Keeps t s s') (ht : t' ≠ t) (hp : s.Waits (.drained t') p) :
    s'.Waits (.drained t') p := by
  refine ⟨hp.issued.trans_le h.nextReply, h.drained _ t' hp.issued ht hp.place, ?_⟩
  rw [h.asked _ hp.issued]
  exact hp.claimer

theorem Keeps.seated (h : Keeps t s s') (ht : t' ≠ t) {i : ClaimInstr} (hi : s.Seated t' i) :
    s'.Seated t' i := by
  have hcalling : ∀ {c : Coalesced}, s.Issued t' c → s.place c.reply = .calling →
      s'.place c.reply = .calling := by
    intro c hc hplace
    refine h.calling _ hc.lt ?_ hplace
    rw [hc.caller]
    exact ht
  cases i with
  | enter r => trivial
  | greedy c | lookup c => exact ⟨h.issued hi.1, hcalling hi.1 hi.2⟩
  | join c k | forget c k =>
    exact ⟨h.issued hi.1, hcalling hi.1 hi.2.1, hi.2.2.trans_le h.nextCohort⟩
  | direct | running => exact ⟨h.issued hi.1, h.serves hi.2⟩
  | window c k | drain c k => exact ⟨h.issued hi.1, hi.2.trans_le h.nextCohort⟩
  | remove c k drained | spawn c drained =>
    exact ⟨h.issued hi.1, fun p hp => h.waits ht (hi.2.1 p hp), hi.2.2⟩
  | send c todo failed | recv c | ready c jobs => exact h.issued hi

/-! ### What the steps do to the places -/

theorem Seats.ticket (h : s.Seats) (t : Nat) (r : ClaimRequest) : (s.ticket t r).Seats := by
  have hasked : ∀ id, id < s.nextReply → (s.ticket t r).asked id = s.asked id :=
    fun id hid => update_of_ne hid.ne _ _
  have hplace : ∀ id, id < s.nextReply → (s.ticket t r).place id = s.place id :=
    fun id hid => update_of_ne hid.ne _ _
  refine { h with gathered := fun k p hp => ?_, passed := fun k task htask => ?_ }
  · have hw := h.gathered k p hp
    refine ⟨Nat.lt_succ_of_lt hw.issued, (hplace _ hw.issued).trans hw.place, ?_⟩
    rw [hasked _ hw.issued]
    exact hw.claimer
  · obtain ⟨hclaimers, hnodup, hmembers⟩ := h.passed k task htask
    refine ⟨hclaimers.trans (map_congr_left fun id hid => ?_), hnodup, fun id hid => ?_⟩
    · rw [hasked _ (hmembers id hid).1]
    · have hlt := (hmembers id hid).1
      exact ⟨Nat.lt_succ_of_lt hlt, (hplace id hlt).trans (hmembers id hid).2⟩

theorem keeps_ticket (s : Coordinator) (t : Nat) (r : ClaimRequest) : Keeps t s (s.ticket t r) := by
  have hold : ∀ {α : Type} {f : Nat → α} {x : α} {id : Nat}, id < s.nextReply →
      update f s.nextReply x id = f id := fun hid => update_of_ne hid.ne _ _
  exact { Keeps.refl t s with nextReply := Nat.le_succ _, asked := fun _ hid => hold hid,
                              caller := fun _ hid => hold hid,
                              calling := fun _ hid _ h => (hold hid).trans h,
                              drained := fun _ _ hid _ h => (hold hid).trans h,
                              passed := fun _ _ hid h => (hold hid).trans h }

theorem issued_ticket (s : Coordinator) (t : Nat) (r : ClaimRequest) :
    (s.ticket t r).Issued t ⟨r.claimer, r.leaseMs, s.nextReply⟩ :=
  ⟨Nat.lt_succ_self _, update_self .., by simp [ticket],
    by simp [ticket]⟩

theorem Seats.openCohort (h : s.Seats) : s.openCohort.Seats := by
  refine { h with gathered := fun k p hp => (h.gathered k p hp).of_eq rfl rfl rfl,
                  formed := fun k hk => ?_,
                  freshCohort := fun k hk => h.freshCohort k (Nat.le_of_succ_le hk) }
  cases hk
  exact Nat.lt_succ_self _

theorem keeps_openCohort (t : Nat) (s : Coordinator) : Keeps t s s.openCohort :=
  { Keeps.refl t s with nextCohort := Nat.le_succ _ }

/-- The claims that were not at `old` have stayed where they were. -/
structure MovedFrom (old : ClaimPlace) (s s' : Coordinator) : Prop where
  nextReply : s'.nextReply = s.nextReply
  asked : s'.asked = s.asked
  place : ∀ id, s.place id ≠ old → s'.place id = s.place id

theorem MovedFrom.waits {old : ClaimPlace} (hmoved : MovedFrom old s s') (hp : s.Waits place p)
    (hne : place ≠ old) : s'.Waits place p := by
  refine ⟨hmoved.nextReply ▸ hp.issued, (hmoved.place _ ?_).trans hp.place, hmoved.asked ▸ hp.claimer⟩
  rw [hp.place]
  exact hne

theorem MovedFrom.passed {old : ClaimPlace} (hmoved : MovedFrom old s s') (h : s.Seats)
    (htask : s.tasks k = some task) (hne : .passed k ≠ old) :
    task.claimers = task.members.map (fun id => (s'.asked id).claimer) ∧ task.members.Nodup ∧
      ∀ id ∈ task.members, id < s'.nextReply ∧ s'.place id = .passed k := by
  obtain ⟨hclaimers, hnodup, hmembers⟩ := h.passed k task htask
  rw [hmoved.nextReply, hmoved.asked]
  refine ⟨hclaimers, hnodup, fun id hid => ⟨(hmembers id hid).1, ?_⟩⟩
  have hp := (hmembers id hid).2
  exact (hmoved.place id (hp ▸ hne)).trans hp

theorem Seats.gather (h : s.Seats) (hc : s.Issued t c) (hplace : s.place c.reply = .calling)
    (hk : k < s.nextCohort) :
    (s.gather t k ⟨c.claimer, c.reply⟩).Seats := by
  have hmoved : MovedFrom .calling s (s.gather t k ⟨c.claimer, c.reply⟩) := by
    refine ⟨rfl, rfl, fun id hid => update_of_ne ?_ _ _⟩
    rintro rfl
    exact hid hplace
  refine { h with gathered := fun j p hp => ?_, once := fun j => ?_, freshCohort := fun j hj => ?_,
                  passed := fun j task htask => hmoved.passed h htask nofun }
  · by_cases hj : j = k
    · subst hj
      simp only [gather, update_self, mem_append,
        mem_singleton] at hp
      rcases hp with hp | rfl
      · exact hmoved.waits (h.gathered j p hp) nofun
      · exact ⟨hc.lt, update_self .., hc.claimer⟩
    · simp only [Coordinator.gather, update_of_ne hj] at hp
      exact hmoved.waits (h.gathered j p hp) nofun
  · by_cases hj : j = k
    · subst hj
      simp only [gather, update_self, map_append, map_cons,
        map_nil]
      refine nodup_append.mpr ⟨h.once j, nodup_singleton _, ?_⟩
      intro a ha b hb hab
      obtain ⟨p, hp, rfl⟩ := mem_map.mp ha
      rw [mem_singleton] at hb
      have hw := (h.gathered j p hp).place
      rw [hab, hb, hplace] at hw
      cases hw
    · simp only [Coordinator.gather, update_of_ne hj]
      exact h.once j
  · have hne : j ≠ k := (hk.trans_le hj).ne'
    simp only [Coordinator.gather, update_of_ne hne]
    exact h.freshCohort j hj

theorem keeps_gather (hc : s.Issued t c) (hplace : s.place c.reply = .calling) (k : Nat) :
    Keeps t s (s.gather t k ⟨c.claimer, c.reply⟩) := by
  refine { Keeps.refl t s with calling := fun id _ hcaller hid => ?_,
                               drained := fun id t' _ _ hid => ?_, passed := fun id j _ hid => ?_ }
  all_goals
    refine (update_of_ne ?_ _ _).trans hid
    rintro rfl
  · exact hcaller hc.caller
  all_goals cases hplace.symm.trans hid

theorem setPlace_of_place_ne {ids : List Nat} {place old : ClaimPlace}
    (hids : ∀ id ∈ ids, s.place id = old) {id : Nat} (hid : s.place id ≠ old) :
    s.setPlace ids place id = s.place id :=
  if_neg fun hmem => hid (hids id hmem)

theorem Seats.gathered_ids (h : s.Seats) (k : Nat) :
    ∀ id ∈ (s.cohorts k).claimers.map reply, s.place id = .gathered k := by
  intro id hid
  obtain ⟨p, hp, rfl⟩ := mem_map.mp hid
  exact (h.gathered k p hp).place

theorem Seats.moved_close (h : s.Seats) (t k : Nat) : MovedFrom (.gathered k) s (s.close t k) :=
  ⟨rfl, rfl, fun _ hid => setPlace_of_place_ne (h.gathered_ids k) hid⟩

theorem Seats.close (h : s.Seats) (t : Nat) (hk : k < s.nextCohort) :
    (s.close t k).Seats := by
  have hmoved := h.moved_close t k
  refine { h with gathered := fun j p hp => ?_, once := fun j => ?_, freshCohort := fun j hj => ?_,
                  passed := fun j task htask => hmoved.passed h htask nofun }
  · by_cases hj : j = k
    · subst hj
      simp [close] at hp
    · simp only [Coordinator.close, update_of_ne hj] at hp
      exact hmoved.waits (h.gathered j p hp) fun heq => hj (ClaimPlace.gathered.inj heq)
  · by_cases hj : j = k
    · subst hj
      simp [close]
    · simp only [Coordinator.close, update_of_ne hj]
      exact h.once j
  · have hne : j ≠ k := (hk.trans_le hj).ne'
    simp only [Coordinator.close, update_of_ne hne]
    exact h.freshCohort j hj

theorem Seats.waits_close (h : s.Seats) (t k : Nat) :
    ∀ p ∈ (s.cohorts k).claimers, (s.close t k).Waits (.drained t) p := by
  intro p hp
  have hw := h.gathered k p hp
  exact { hw with place := if_pos (mem_map_of_mem hp) }

theorem Seats.keeps_close (h : s.Seats) (t k : Nat) : Keeps t s (s.close t k) := by
  have hplace := (h.moved_close t k).place
  exact { Keeps.refl t s with calling := fun id _ _ hid => (hplace id (by simp [hid])).trans hid,
                              drained := fun id _ _ _ hid => (hplace id (by simp [hid])).trans hid,
                              passed := fun id _ _ hid => (hplace id (by simp [hid])).trans hid }

theorem Seats.unform (h : s.Seats) (k : Nat) : (s.unform k).Seats := by
  unfold Coordinator.unform
  split
  · exact { h with gathered := fun k p hp => (h.gathered k p hp).of_eq rfl rfl rfl, formed := nofun }
  · exact h

theorem keeps_unform (t : Nat) (s : Coordinator) (k : Nat) : Keeps t s (s.unform k) := by
  unfold unform
  split
  · exact { Keeps.refl t s with }
  · exact .refl t s

theorem Seats.submit (h : s.Seats) {claimers : List Claimer} (leaseMs : Option Nat)
    (hclaimers : claimers = members.map fun id => (s.asked id).claimer) (hnodup : members.Nodup)
    (hmembers : ∀ id ∈ members, id < s.nextReply ∧ s.place id = place)
    (hgathered : ∀ k, place ≠ .gathered k) (hpassed : ∀ k, place ≠ .passed k) :
    (s.submit claimers leaseMs members).Seats := by
  have hmoved : MovedFrom place s (s.submit claimers leaseMs members) :=
    ⟨rfl, rfl, fun _ hid => setPlace_of_place_ne (fun id hid => (hmembers id hid).2) hid⟩
  refine { h with gathered := fun j p hp => hmoved.waits (h.gathered j p hp) (hgathered j).symm,
                  passed := fun j task htask => ?_, freshTask := fun j hj => ?_ }
  · by_cases hj : j = s.nextTask
    · subst hj
      simp only [Coordinator.submit, update_self, Option.some.injEq] at htask
      subst htask
      exact ⟨hclaimers, hnodup, fun id hid => ⟨(hmembers id hid).1, if_pos hid⟩⟩
    · simp only [Coordinator.submit, update_of_ne hj] at htask
      exact hmoved.passed h htask (hpassed j).symm
  · have hne : j ≠ s.nextTask := (Nat.lt_of_succ_le hj).ne'
    simp only [Coordinator.submit, update_of_ne hne]
    exact h.freshTask j (Nat.le_of_succ_le hj)

theorem Seats.keeps_submit (h : s.Seats) (claimers : List Claimer) (leaseMs : Option Nat)
    (hmembers : ∀ id ∈ members, s.place id = .calling ∧ s.caller id = t ∨ s.place id = .drained t) :
    Keeps t s (s.submit claimers leaseMs members) := by
  refine { Keeps.refl t s with calling := fun id _ hcaller hid => (if_neg fun hmem => ?_).trans hid,
                               drained := fun id t' _ ht hid => (if_neg fun hmem => ?_).trans hid,
                               passed := fun id k _ hid => (if_neg fun hmem => ?_).trans hid,
                               tasks := fun k task htask => ?_ }
  · rcases hmembers id hmem with ⟨-, hc⟩ | hd
    · exact hcaller hc
    · cases hd.symm.trans hid
  · rcases hmembers id hmem with ⟨hc, -⟩ | hd
    · cases hc.symm.trans hid
    · exact ht (ClaimPlace.drained.inj (hid.symm.trans hd))
  · rcases hmembers id hmem with ⟨hc, -⟩ | hd
    · cases hc.symm.trans hid
    · cases hd.symm.trans hid
  · have hne : k ≠ s.nextTask := by
      rintro rfl
      rw [h.freshTask _ le_rfl] at htask
      cases htask
    exact ⟨task, (update_of_ne hne _ _).trans htask, rfl, rfl, fun _ => rfl⟩

theorem serves_submit (s : Coordinator) (claimers : List Claimer) (leaseMs : Option Nat)
    (members : List Nat) : (s.submit claimers leaseMs members).Serves s.nextTask members leaseMs :=
  ⟨_, update_self .., rfl, rfl⟩

theorem Seats.finish (h : s.Seats) (htask : s.tasks k = some task) (q : QueueProjection)
    (outcome : Option ServedPass) : (s.finish k task q outcome).Seats := by
  refine { h with gathered := fun k p hp => (h.gathered k p hp).of_eq rfl rfl rfl,
                  passed := fun j task' htask' => ?_, freshTask := fun j hj => ?_ }
  · by_cases hj : j = k
    · subst hj
      simp only [finish, update_self, Option.some.injEq] at htask'
      subst htask'
      exact h.passed j task htask
    · simp only [Coordinator.finish, update_of_ne hj] at htask'
      exact h.passed j task' htask'
  · have hne : j ≠ k := by
      rintro rfl
      rw [h.freshTask j hj] at htask
      cases htask
    simp only [Coordinator.finish, update_of_ne hne]
    exact h.freshTask j hj

theorem keeps_finish (t : Nat) (htask : s.tasks k = some task) (htodo : task.outcome = none)
    (q : QueueProjection) (outcome : Option ServedPass) :
    Keeps t s (s.finish k task q outcome) := by
  refine { Keeps.refl t s with tasks := fun j task' htask' => ?_ }
  by_cases hj : j = k
  · subst hj
    rw [htask] at htask'
    cases htask'
    exact ⟨_, update_self .., rfl, rfl, fun hne => absurd htodo hne⟩
  · exact ⟨task', (update_of_ne hj _ _).trans htask', rfl, rfl, fun _ => rfl⟩

structure SameSeats (s s' : Coordinator) : Prop where
  forming : s'.forming = s.forming
  cohorts : s'.cohorts = s.cohorts
  nextCohort : s'.nextCohort = s.nextCohort
  nextReply : s'.nextReply = s.nextReply
  tasks : s'.tasks = s.tasks
  nextTask : s'.nextTask = s.nextTask
  asked : s'.asked = s.asked
  caller : s'.caller = s.caller
  place : s'.place = s.place

theorem SameSeats.seats (h : SameSeats s s') (hs : s.Seats) : s'.Seats := by
  refine ⟨fun k p hp => ?_, fun k => ?_, fun k hk => ?_, fun k hk => ?_, fun k task htask => ?_,
    fun k hk => ?_⟩
  · rw [h.cohorts] at hp
    exact (hs.gathered k p hp).of_eq h.nextReply h.place h.asked
  · rw [h.cohorts]
    exact hs.once k
  · rw [h.forming] at hk
    rw [h.nextCohort]
    exact hs.formed k hk
  · rw [h.nextCohort] at hk
    rw [h.cohorts]
    exact hs.freshCohort k hk
  · rw [h.tasks] at htask
    rw [h.asked, h.nextReply, h.place]
    exact hs.passed k task htask
  · rw [h.nextTask] at hk
    rw [h.tasks]
    exact hs.freshTask k hk

theorem SameSeats.keeps (h : SameSeats s s') (t : Nat) : Keeps t s s' := by
  refine ⟨h.nextReply.ge, h.nextCohort.ge, fun _ _ => congrFun h.asked _,
    fun _ _ => congrFun h.caller _, fun id _ _ hid => (congrFun h.place id).trans hid,
    fun id _ _ _ hid => (congrFun h.place id).trans hid,
    fun id _ _ hid => (congrFun h.place id).trans hid, fun k task htask => ?_⟩
  exact ⟨task, (congrFun h.tasks k).trans htask, rfl, rfl, fun _ => rfl⟩

theorem sameSeats_giveBack (s : Coordinator) (id : Nat) (result : Option (List LeasedJob)) :
    SameSeats s (s.giveBack id result) :=
  ⟨rfl, rfl, rfl, rfl, rfl, rfl, rfl, rfl, rfl⟩

end Coordinator

/-! ### One step, and all of them -/

namespace ClaimStep

def shared : ClaimStep → Coordinator
  | .go s _ | .done s _ | .dropped s => s

def next? : ClaimStep → Option ClaimInstr
  | .go _ i => some i
  | _ => none

end ClaimStep

def CoordInstr.claim? : CoordInstr → Option ClaimInstr
  | .claim _ i => some i
  | _ => none

def CoordInstr.request? : CoordInstr → Option ClaimRequest
  | .claim _ (.enter r) => some r
  | _ => none

theorem ClaimOwner.shared_resume (owner : ClaimOwner) (o : ClaimStep) :
    (owner.resume o).shared = o.shared := by
  cases o with
  | go s i => rfl
  | done s result =>
    cases owner with
    | post => rfl
    | work w => cases result <;> rfl
  | dropped s => cases owner <;> rfl

theorem ClaimOwner.code_resume (owner : ClaimOwner) (o : ClaimStep) :
    (∃ i, o.next? = some i ∧ (owner.resume o).code [] = [.claim owner i]) ∨
      o.next? = none ∧ ((owner.resume o).code [] = [] ∨
        ∃ w, owner = .work w ∧ ((owner.resume o).code [] = [.release w.conn] ∨
          ∃ jobs, (owner.resume o).code [] = [.deliver w jobs])) := by
  cases o with
  | go s i => exact .inl ⟨i, rfl, rfl⟩
  | done s result =>
    cases owner with
    | post => exact .inr ⟨rfl, .inl rfl⟩
    | work w =>
      cases result with
      | none => exact .inr ⟨rfl, .inr ⟨w, rfl, .inl rfl⟩⟩
      | some jobs => exact .inr ⟨rfl, .inr ⟨w, rfl, .inr ⟨jobs, rfl⟩⟩⟩
  | dropped s =>
    cases owner with
    | post => exact .inr ⟨rfl, .inl rfl⟩
    | work w => exact .inr ⟨rfl, .inr ⟨w, rfl, .inl rfl⟩⟩

theorem ClaimOwner.mem_code_resume {owner : ClaimOwner} {o : ClaimStep} {i : CoordInstr}
    (h : i ∈ (owner.resume o).code []) :
    (∃ j, o.next? = some j ∧ i = .claim owner j) ∨ i.claim? = none := by
  rcases owner.code_resume o with ⟨j, hj, hcode⟩ | ⟨-, hcode | ⟨w, -, hcode | ⟨jobs, hcode⟩⟩⟩ <;>
    rw [hcode] at h
  · exact .inl ⟨j, hj, mem_singleton.mp h⟩
  · cases h
  all_goals
    cases mem_singleton.mp h
    exact .inr rfl

namespace Coordinator

variable {s s' : Coordinator} {t t' : Nat}

variable {x : Wake} {i : CoordInstr} {a : ThreadAction CoordCall Wake}

/-- **One step of a claim** keeps every claim in its place. -/
theorem seats_of_claimSteps {i : ClaimInstr} {o : ClaimStep} (hsteps : ClaimInstr.Steps s t x i o)
    (hs : s.Seats) (hi : s.Seated t i) :
    o.shared.Seats ∧ Keeps t s o.shared ∧ ∀ j ∈ o.next?, o.shared.Seated t j := by
  cases hsteps with
  | missing | invalid | dropDirect | dropWindow | dropRecv =>
    exact ⟨hs, .refl t s, nofun⟩
  | alone r | call j r =>
    refine ⟨hs.ticket t r, keeps_ticket s t r, fun _ hj => ?_⟩
    cases hj
    exact ⟨issued_ticket s t r, update_self ..⟩
  | submit c =>
    have hmem : ∀ id ∈ [c.reply], id < s.nextReply ∧ s.place id = .calling := by
      intro id hid
      rw [mem_singleton] at hid
      subst hid
      exact ⟨hi.1.lt, hi.2⟩
    have hkeeps : Keeps t s (s.submit [c.claimer] c.leaseMs [c.reply]) := by
      apply hs.keeps_submit
      intro id hid
      rw [mem_singleton] at hid
      subst hid
      exact .inl ⟨hi.2, hi.1.caller⟩
    refine ⟨hs.submit c.leaseMs ?_ (nodup_singleton _) hmem (by simp) (by simp), hkeeps,
      fun _ hj => ?_⟩
    · simp [hi.1.claimer]
    · cases hj
      exact ⟨hkeeps.issued hi.1, serves_submit ..⟩
  | collect c k htask hdone =>
    have hsame := sameSeats_giveBack s c.reply
    exact ⟨(hsame _).seats hs, (hsame _).keeps t, nofun⟩
  | find c hforming =>
    refine ⟨hs, .refl t s, fun _ hj => ?_⟩
    cases hj
    exact ⟨hi.1, hi.2, hs.formed _ hforming⟩
  | insert c hforming =>
    refine ⟨hs.openCohort, keeps_openCohort t s, fun _ hj => ?_⟩
    cases hj
    exact ⟨(keeps_openCohort t s).issued hi.1, hi.2, Nat.lt_succ_self _⟩
  | late c | wake c | sent c | receive c | lost c =>
    refine ⟨hs, .refl t s, fun _ hj => ?_⟩
    cases hj
    exact hi
  | lead c k hopen hempty =>
    have hkeeps := keeps_gather hi.1 hi.2.1 k
    refine ⟨hs.gather hi.1 hi.2.1 hi.2.2, hkeeps, fun _ hj => ?_⟩
    cases hj
    exact ⟨hkeeps.issued hi.1, hi.2.2⟩
  | follow c k hopen hsome =>
    have hkeeps := keeps_gather hi.1 hi.2.1 k
    refine ⟨hs.gather hi.1 hi.2.1 hi.2.2, hkeeps, fun _ hj => ?_⟩
    cases hj
    exact hkeeps.issued hi.1
  | retry c k =>
    have hkeeps := keeps_unform t s k
    refine ⟨hs.unform k, hkeeps, fun _ hj => ?_⟩
    cases hj
    refine ⟨hkeeps.issued hi.1, ?_⟩
    unfold unform
    split
    all_goals exact hi.2.1
  | drain c k =>
    have hkeeps := hs.keeps_close t k
    refine ⟨hs.close t hi.2, hkeeps, fun _ hj => ?_⟩
    cases hj
    exact ⟨hkeeps.issued hi.1, hs.waits_close t k, hs.once k⟩
  | remove c k drained =>
    have hkeeps := keeps_unform t s k
    refine ⟨hs.unform k, hkeeps, fun _ hj => ?_⟩
    cases hj
    refine ⟨hkeeps.issued hi.1, fun p hp => ?_, hi.2.2⟩
    unfold unform
    split
    · exact (hi.2.1 p hp).of_eq rfl rfl rfl
    · exact hi.2.1 p hp
  | spawn c drained =>
    obtain ⟨hc, hdrained, hnodup⟩ := hi
    have hmem : ∀ id ∈ drained.map reply,
        id < s.nextReply ∧ s.place id = .drained t := by
      intro id hid
      obtain ⟨p, hp, rfl⟩ := mem_map.mp hid
      exact ⟨(hdrained p hp).issued, (hdrained p hp).place⟩
    have hkeeps := hs.keeps_submit (t := t) (drained.map claimer) c.leaseMs
      fun id hid => .inr (hmem id hid).2
    refine ⟨hs.submit c.leaseMs ?_ hnodup hmem (by simp) (by simp), hkeeps, fun _ hj => ?_⟩
    · rw [map_map]
      exact map_congr_left fun p hp => (hdrained p hp).claimer
    · cases hj
      exact ⟨hkeeps.issued hc, serves_submit ..⟩
  | served c k drained htask hdone | refused c k drained htask hdone =>
    refine ⟨hs, .refl t s, fun _ hj => ?_⟩
    cases hj
    exact hi.1
  | dropRunning c k drained =>
    have hsame : SameSeats s (s.dropReplies (drained.map reply)) :=
      ⟨rfl, rfl, rfl, rfl, rfl, rfl, rfl, rfl, rfl⟩
    exact ⟨hsame.seats hs, hsame.keeps t, nofun⟩
  | error c | unstated c jobs =>
    have hsame := sameSeats_giveBack s c.reply none
    exact ⟨hsame.seats hs, hsame.keeps t, nofun⟩
  | answer c reply jobs todo failed =>
    have hsame : SameSeats s (s.answer reply jobs) :=
      ⟨rfl, rfl, rfl, rfl, rfl, rfl, rfl, rfl, rfl⟩
    refine ⟨hsame.seats hs, hsame.keeps t, fun _ hj => ?_⟩
    cases hj
    exact (hsame.keeps t).issued hi
  | finish c jobs now =>
    have hsame : SameSeats s
        ((s.setQ (s.q.sweepExpired now)).giveBack c.reply (some jobs)) :=
      ⟨rfl, rfl, rfl, rfl, rfl, rfl, rfl, rfl, rfl⟩
    exact ⟨hsame.seats hs, hsame.keeps t, nofun⟩

/-- What holds of the code of a thread: one step, which finds its claims. -/
def SeatedCode (s : Coordinator) (t : Nat) (code : List CoordInstr) : Prop :=
  code.length ≤ 1 ∧ ∀ i ∈ code, ∀ j ∈ i.claim?, s.Seated t j

theorem seatedCode_of_no_claim (h : i.claim? = none) : s.SeatedCode t [i] := by
  refine ⟨le_rfl, fun j hj => ?_⟩
  rw [mem_singleton] at hj
  subst hj
  simp [h]

theorem seatedCode_nil : s.SeatedCode t [] := ⟨Nat.zero_le _, nofun⟩

/-- **One step** keeps every claim in its place. -/
theorem seats_of_steps {o : Outcome Coordinator CoordInstr} (hsteps : Steps s t x i o)
    (hs : s.Seats) (hi : ∀ j ∈ i.claim?, s.Seated t j) :
    o.shared.Seats ∧ Keeps t s o.shared ∧ o.shared.SeatedCode t (o.code []) := by
  cases hsteps with
  | claim owner hclaim =>
    obtain ⟨hseats, hkeeps, hnext⟩ := seats_of_claimSteps hclaim hs (hi _ rfl)
    rw [owner.shared_resume]
    refine ⟨hseats, hkeeps, ?_⟩
    rcases owner.code_resume _ with ⟨j, hj, hcode⟩ | ⟨-, hcode | ⟨w, -, hcode | ⟨jobs, hcode⟩⟩⟩ <;>
      rw [hcode]
    · refine ⟨le_rfl, fun k hk => ?_⟩
      cases mem_singleton.mp hk
      intro j' hj'
      cases hj'
      exact hnext j hj
    · exact seatedCode_nil
    all_goals exact seatedCode_of_no_claim rfl
  | openConn node max leaseMs =>
    have hsame : SameSeats s (s.allocConn t) := ⟨rfl, rfl, rfl, rfl, rfl, rfl, rfl, rfl, rfl⟩
    exact ⟨hsame.seats hs, hsame.keeps t, seatedCode_of_no_claim rfl⟩
  | stream w _ hj =>
    refine ⟨hs, .refl t s, ?_⟩
    rcases hj with rfl | rfl | ⟨jobs, rfl⟩ | rfl | ⟨max, rfl⟩
    · exact seatedCode_of_no_claim rfl
    · exact seatedCode_of_no_claim rfl
    · exact seatedCode_of_no_claim rfl
    · exact seatedCode_of_no_claim rfl
    · refine ⟨le_rfl, fun k hk => ?_⟩
      rw [mem_singleton.mp hk]
      intro j' hj'
      cases hj'
      trivial
  | release conn =>
    have hsame : SameSeats s (s.releaseConn conn) := ⟨rfl, rfl, rfl, rfl, rfl, rfl, rfl, rfl, rfl⟩
    exact ⟨hsame.seats hs, hsame.keeps t, seatedCode_nil⟩
  | execute k hx htask htodo | abort k htask htodo =>
    exact ⟨hs.finish htask _ _, keeps_finish t htask htodo _ _, seatedCode_nil⟩
  | other q _ _ =>
    have hsame : SameSeats s (s.setQ q) := ⟨rfl, rfl, rfl, rfl, rfl, rfl, rfl, rfl, rfl⟩
    exact ⟨hsame.seats hs, hsame.keeps t, seatedCode_nil⟩

abbrev Sound (s : Threads Coordinator CoordInstr) : Prop := Threads.Holds Seats SeatedCode s

theorem Keeps.seatedCode (h : Keeps t s s') (ht : t' ≠ t) {code : List CoordInstr}
    (hcode : s.SeatedCode t' code) : s'.SeatedCode t' code :=
  ⟨hcode.1, fun i hi j hj => h.seated ht (hcode.2 i hi j hj)⟩

theorem seatedCode_body (s : Coordinator) (t : Nat) (c : CoordCall) : s.SeatedCode t c.body := by
  cases c with
  | claim node max leaseMs =>
    refine ⟨le_rfl, fun i hi => ?_⟩
    rw [mem_singleton.mp hi]
    intro j hj
    cases hj
    trivial
  | _ => exact seatedCode_of_no_claim rfl

theorem sound_start (q : QueueProjection) : Sound (start q) := by
  refine ⟨⟨?_, fun _ => nodup_nil, ?_, fun _ _ => rfl, ?_, fun _ _ => rfl⟩,
    fun t => seatedCode_nil⟩
  · intro k p hp
    cases hp
  · intro k hk
    cases hk
  · intro k task htask
    cases htask

/-- **The only step a thread has ahead of it**, and what it does. -/
theorem Sound.steps {s s' : Threads Coordinator CoordInstr} (h : Sound s)
    (hstep : step s a = some s') :
    (∃ t c, a = .start t c ∧ s.code t = [] ∧
      s' = ⟨s.shared, Function.update s.code t c.body⟩) ∨
    ∃ t x i o, a = .run t x ∧ s.code t = [i] ∧ Steps s.shared t x i o ∧
      s' = ⟨o.shared, Function.update s.code t (o.code [])⟩ := by
  obtain ⟨t, c, rfl, hcode, rfl⟩ | ⟨t, x, i, rest, o, rfl, hcode, ho, rfl⟩ :=
    Threads.step_cases CoordCall.body sem hstep
  · exact .inl ⟨t, c, rfl, hcode, rfl⟩
  · have hlen := (h.code t).1
    rw [hcode, length_cons] at hlen
    cases rest with
    | nil => exact .inr ⟨t, x, i, o, rfl, hcode, steps_of_sem ho, rfl⟩
    | cons j rest =>
      rw [length_cons] at hlen
      omega

/-- **Every step** of every interleaving. -/
theorem Sound.step {s s' : Threads Coordinator CoordInstr} (h : Sound s)
    (hstep : Coordinator.step s a = some s') : Sound s' := by
  obtain ⟨t, c, rfl, hcode, rfl⟩ | ⟨t, x, i, o, rfl, hcode, hsteps, rfl⟩ := h.steps hstep
  · exact h.start (seatedCode_body s.shared t c)
  · have hi := (h.code t).2 i (by rw [hcode]; exact mem_singleton_self i)
    obtain ⟨hseats, hkeeps, hown⟩ := seats_of_steps hsteps h.shared hi
    exact h.run hseats hown fun t' code ht hcode' => hkeeps.seatedCode ht hcode'

end Coordinator

end Topics
