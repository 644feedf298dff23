import Topics.ClaimPlaces

/-!
# The leader of a cohort

The first claim to join a cohort leads it: it sleeps the window, drains the cohort and sends every
member its slice.  Nobody else does.  A leader whose future is dropped while it sleeps leaves a cohort
behind that is open, in the map and not empty, so every later claim joins it and waits.
-/

namespace Topics

open Lib Function ClaimStep List Option Coordinator

/-! ## Leaders -/

namespace ClaimInstr

def leads? : ClaimInstr → Option Nat
  | .window _ h | .drain _ h => some h
  | _ => none

/-- The cohort a claim has found closed, or has closed. -/
def past? : ClaimInstr → Option Nat
  | .forget _ h | .remove _ h _ => some h
  | _ => none

end ClaimInstr

namespace CoordInstr

def leads? (i : CoordInstr) : Option Nat := i.claim?.bind ClaimInstr.leads?

def past? (i : CoordInstr) : Option Nat := i.claim?.bind ClaimInstr.past?

end CoordInstr

def Wake.cancels : Wake → Bool
  | .cancel => true
  | _ => false

namespace Coordinator

variable {s s' : Coordinator} {t t' : Nat}

/-- No leader is dropped while it sleeps the window. -/
def LeadersStay (_ : Coordinator) (_ : Nat) (x : Wake) (i : CoordInstr) : Prop :=
  i.leads?.isSome = true → x.cancels = false

instance (s : Coordinator) (t : Nat) (x : Wake) (i : CoordInstr) :
    Decidable (LeadersStay s t x i) := by
  unfold LeadersStay
  infer_instance

/-- A cohort has a leader as long as it has claimers, and a closed one has none. -/
structure Led (s : Coordinator) : Prop where
  led : ∀ h, (s.cohorts h).leader = none ↔ (s.cohorts h).claimers = []
  closed : ∀ h, (s.cohorts h).closed = true → (s.cohorts h).claimers = []

/-- A leader is on its way to the drain, and nobody else is. -/
structure LeadCode (s : Coordinator) (t : Nat) (code : List CoordInstr) : Prop where
  leads : ∀ h, (s.cohorts h).leader = some t → ∃ i ∈ code, i.leads? = some h
  leader : ∀ i ∈ code, ∀ h ∈ i.leads?, (s.cohorts h).leader = some t
  past : ∀ i ∈ code, ∀ h ∈ i.past?, (s.cohorts h).closed = true

theorem Led.of_cohorts (h : s.Led) (hsame : s'.cohorts = s.cohorts) : s'.Led := by
  refine ⟨fun k => ?_, fun k hk => ?_⟩
  · rw [hsame]
    exact h.led k
  · rw [hsame] at hk ⊢
    exact h.closed k hk

variable {code : List CoordInstr} {i : CoordInstr} {x : Wake} {o : ClaimStep} {h k : Nat}
  {a : ThreadAction CoordCall Wake}

theorem LeadCode.of_cohorts (h : s.LeadCode t code) (hsame : s'.cohorts = s.cohorts) :
    s'.LeadCode t code := by
  refine ⟨fun k hk => ?_, fun i hi k hk => ?_, fun i hi k hk => ?_⟩
  · rw [hsame] at hk
    exact h.leads k hk
  · rw [hsame]
    exact h.leader i hi k hk
  · rw [hsame]
    exact h.past i hi k hk

theorem LeadCode.quiet (h : s.LeadCode t [i]) (hi : i.leads? = none)
    (hsame : s'.cohorts = s.cohorts)
    (hcode : ∀ j ∈ code, j.leads? = none ∧ ∀ k ∈ j.past?, (s.cohorts k).closed = true) :
    s'.LeadCode t code := by
  refine ⟨fun k hk => ?_, fun j hj k hk => ?_, fun j hj k hk => ?_⟩
  · rw [hsame] at hk
    obtain ⟨j, hj, hlead⟩ := h.leads k hk
    rw [mem_singleton] at hj
    subst hj
    rw [hi] at hlead
    cases hlead
  · rw [(hcode j hj).1] at hk
    cases hk
  · rw [hsame]
    exact (hcode j hj).2 k hk

theorem cohorts_of_claimSteps {i : ClaimInstr} (hsteps : ClaimInstr.Steps s t x i o) :
    o.shared.cohorts = s.cohorts ∨ (∃ c h, i = .join c h) ∨ ∃ c h, i = .drain c h := by
  have hunform : ∀ h, (s.unform h).cohorts = s.cohorts := by
    intro h
    unfold unform
    split <;> rfl
  cases hsteps with
  | lead c k | follow c k => exact .inr (.inl ⟨c, k, rfl⟩)
  | drain c k => exact .inr (.inr ⟨c, k, rfl⟩)
  | retry c k | remove c k drained => exact .inl (hunform k)
  | _ => exact .inl rfl

theorem next_of_claimSteps {i : ClaimInstr} (hsteps : ClaimInstr.Steps s t x i o)
    (hi : i.leads? = none) (hjoin : ∀ c h, i ≠ .join c h) :
    ∀ j ∈ o.next?, j.leads? = none ∧ j.past? = none := by
  intro j hj
  cases hsteps with
  | late c k | lead c k | follow c k => exact absurd rfl (hjoin c k)
  | wake c k | drain c k => cases hi
  | _ =>
    first
    | cases hj
      done
    | cases hj
      exact ⟨rfl, rfl⟩

theorem cohorts_gather_of_ne (hk : k ≠ h) (p : PendingClaimer) :
    (s.gather t h p).cohorts k = s.cohorts k := by
  simp only [gather, update_of_ne hk]

theorem cohorts_close_of_ne (hk : k ≠ h) : (s.close t h).cohorts k = s.cohorts k := by
  simp only [close, update_of_ne hk]

theorem Led.gather (h : s.Led) (t : Nat) (p : PendingClaimer)
    (hopen : (s.cohorts k).closed = false) : (s.gather t k p).Led := by
  refine ⟨fun j => ?_, fun j hj => ?_⟩
  · by_cases hjk : j = k
    · subst hjk
      have hled := h.led j
      by_cases hempty : (s.cohorts j).claimers = []
      · simp [gather, hempty]
      · have hsome := mt hled.mp hempty
        simp [gather, hempty, hsome]
    · rw [cohorts_gather_of_ne hjk]
      exact h.led j
  · by_cases hjk : j = k
    · subst hjk
      simp [gather, hopen] at hj
    · rw [cohorts_gather_of_ne hjk] at hj ⊢
      exact h.closed j hj

theorem Led.close (h : s.Led) (t k : Nat) : (s.close t k).Led := by
  refine ⟨fun j => ?_, fun j hj => ?_⟩
  · by_cases hjk : j = k
    · subst hjk
      simp [Coordinator.close]
    · rw [cohorts_close_of_ne hjk]
      exact h.led j
  · by_cases hjk : j = k
    · subst hjk
      simp [Coordinator.close]
    · rw [cohorts_close_of_ne hjk] at hj ⊢
      exact h.closed j hj

theorem LeadCode.gather_other (h : s.LeadCode t' code) (hled : s.Led) (ht : t' ≠ t) (k : Nat)
    (p : PendingClaimer) : (s.gather t k p).LeadCode t' code := by
  have hleader : ∀ j, ((s.gather t k p).cohorts j).leader = some t' ↔
      (s.cohorts j).leader = some t' := by
    intro j
    by_cases hjk : j = k
    · subst hjk
      by_cases hempty : (s.cohorts j).claimers = []
      · simp [gather, hempty, (hled.led j).mpr hempty, Ne.symm ht]
      · simp [gather, hempty]
    · rw [cohorts_gather_of_ne hjk]
  have hclosed : ∀ j, ((s.gather t k p).cohorts j).closed = (s.cohorts j).closed := by
    intro j
    by_cases hjk : j = k
    · subst hjk
      simp [gather]
    · rw [cohorts_gather_of_ne hjk]
  refine ⟨fun j hj => h.leads j ((hleader j).mp hj), fun i hi j hj => ?_, fun i hi j hj => ?_⟩
  · exact (hleader j).mpr (h.leader i hi j hj)
  · rw [hclosed]
    exact h.past i hi j hj

theorem LeadCode.close_other (h : s.LeadCode t' code) (ht : t' ≠ t)
    (hk : (s.cohorts k).leader = some t) : (s.close t k).LeadCode t' code := by
  have hne : ∀ j, (s.cohorts j).leader = some t' → j ≠ k := by
    rintro j hj rfl
    rw [hk] at hj
    exact ht (some.inj hj).symm
  refine ⟨fun j hj => ?_, fun i hi j hj => ?_, fun i hi j hj => ?_⟩
  · by_cases hjk : j = k
    · subst hjk
      simp [close] at hj
    · rw [cohorts_close_of_ne hjk] at hj
      exact h.leads j hj
  · rw [cohorts_close_of_ne (hne j (h.leader i hi j hj))]
    exact h.leader i hi j hj
  · by_cases hjk : j = k
    · subst hjk
      simp [close]
    · rw [cohorts_close_of_ne hjk]
      exact h.past i hi j hj

theorem leadCode_singleton (hleads : ∀ h, (s.cohorts h).leader = some t → i.leads? = some h)
    (hleader : ∀ h ∈ i.leads?, (s.cohorts h).leader = some t)
    (hpast : ∀ h ∈ i.past?, (s.cohorts h).closed = true) : s.LeadCode t [i] := by
  refine ⟨fun h hh => ⟨i, mem_singleton_self i, hleads h hh⟩, fun j hj => ?_, fun j hj => ?_⟩
  · rw [mem_singleton.mp hj]
    exact hleader
  · rw [mem_singleton.mp hj]
    exact hpast

/-- **One step.**  If it does not drop a sleeping leader, the cohorts keep theirs. -/
theorem led_of_steps {o : Outcome Coordinator CoordInstr} (hsteps : Steps s t x i o)
    (hled : s.Led) (hi : s.LeadCode t [i]) (hR : LeadersStay s t x i) :
    o.shared.Led ∧ o.shared.LeadCode t (o.code []) ∧
      ∀ t' code, t' ≠ t → s.LeadCode t' code → o.shared.LeadCode t' code := by
  have hmine : i.leads? = none → ∀ h, (s.cohorts h).leader ≠ some t := by
    intro hnone h hh
    obtain ⟨j, hj, hlead⟩ := hi.leads h hh
    rw [mem_singleton] at hj
    subst hj
    rw [hnone] at hlead
    cases hlead
  -- everything outside the claims leaves the cohorts alone
  have hquiet : i.leads? = none → o.shared.cohorts = s.cohorts →
      (∀ j ∈ o.code [], j.leads? = none ∧ j.past? = none) →
      o.shared.Led ∧ o.shared.LeadCode t (o.code []) ∧
        ∀ t' code, t' ≠ t → s.LeadCode t' code → o.shared.LeadCode t' code := by
    intro hnone hsame hcode
    refine ⟨hled.of_cohorts hsame, hi.quiet hnone hsame fun j hj => ⟨(hcode j hj).1, ?_⟩,
      fun t' code _ h => h.of_cohorts hsame⟩
    rw [(hcode j hj).2]
    exact fun k hk => by cases hk
  have hnocode : o.code [] = [] → ∀ j ∈ o.code [], j.leads? = none ∧ j.past? = none := by
    intro hnil j hj
    rw [hnil] at hj
    cases hj
  cases hsteps with
  | openConn node max leaseMs =>
    refine hquiet rfl rfl fun j hj => ?_
    rw [mem_singleton.mp hj]
    exact ⟨rfl, rfl⟩
  | stream w hi' hj' =>
    refine hquiet ?_ rfl fun j hj => ?_
    · rcases hi' with rfl | rfl | rfl | ⟨jobs, rfl⟩
      all_goals rfl
    · rw [mem_singleton.mp hj]
      rcases hj' with rfl | rfl | ⟨jobs, rfl⟩ | rfl | ⟨max, rfl⟩
      all_goals exact ⟨rfl, rfl⟩
  | release conn | execute k hx htask htodo | abort k htask htodo =>
    exact hquiet rfl rfl (hnocode rfl)
  | other q hi' _ =>
    refine hquiet ?_ rfl (hnocode rfl)
    cases i with
    | claim owner j => exact absurd rfl (hi' owner j)
    | _ => rfl
  | claim owner hclaim =>
    rename_i j o'
    rw [owner.shared_resume] at hquiet ⊢
    -- the code a claim goes on with
    have hsimple : (CoordInstr.claim owner j).leads? = none → (∀ c h, j ≠ .join c h) →
        o'.shared.Led ∧ o'.shared.LeadCode t ((owner.resume o').code []) ∧
          ∀ t' code, t' ≠ t → s.LeadCode t' code → o'.shared.LeadCode t' code := by
      intro hnone hjoin
      refine hquiet hnone ?_ fun i' hi' => ?_
      · rcases cohorts_of_claimSteps hclaim with hsame | ⟨c, k, rfl⟩ | ⟨c, k, rfl⟩
        · exact hsame
        · exact absurd rfl (hjoin c k)
        · cases hnone
      · rcases ClaimOwner.mem_code_resume hi' with ⟨j', hj', rfl⟩ | hnone'
        · exact next_of_claimSteps hclaim hnone hjoin j' hj'
        · simp [CoordInstr.leads?, CoordInstr.past?, hnone']
    cases hclaim with
    | late c k hclosed =>
      refine ⟨hled, hi.quiet rfl rfl fun i' hi' => ?_, fun t' code _ h => h⟩
      rw [mem_singleton.mp hi']
      refine ⟨rfl, fun k' hk' => ?_⟩
      cases hk'
      exact hclosed
    | lead c k hopen hempty =>
      refine ⟨hled.gather t _ hopen, ?_, fun t' code ht h => h.gather_other hled ht k _⟩
      apply leadCode_singleton
      · intro h hh
        by_cases hk : h = k
        · subst hk
          rfl
        · rw [shared, cohorts_gather_of_ne hk] at hh
          exact absurd hh (hmine rfl h)
      · intro h hh
        cases hh
        simp [shared, gather, hempty]
      · exact fun h hh => by cases hh
    | follow c k hopen hsome =>
      refine ⟨hled.gather t _ hopen, ?_, fun t' code ht h => h.gather_other hled ht k _⟩
      apply leadCode_singleton
      · intro h hh
        refine absurd ?_ (hmine rfl h)
        by_cases hk : h = k
        · subst hk
          simpa [shared, gather, hsome] using hh
        · rwa [shared, cohorts_gather_of_ne hk] at hh
      all_goals exact fun h hh => by cases hh
    | wake c k =>
      refine ⟨hled, ?_, fun t' code _ h => h⟩
      have hlead := hi.leader _ (mem_singleton_self _) k rfl
      apply leadCode_singleton
      · intro h hh
        obtain ⟨i', hi', hlead'⟩ := hi.leads h hh
        rw [mem_singleton.mp hi'] at hlead'
        exact hlead'
      · intro h hh
        cases hh
        exact hlead
      · exact fun h hh => by cases hh
    | dropWindow c k => exact absurd (hR rfl) (by simp [Wake.cancels])
    | drain c k =>
      have hlead := hi.leader _ (mem_singleton_self _) k rfl
      refine ⟨hled.close t k, ?_, fun t' code ht h => h.close_other ht hlead⟩
      apply leadCode_singleton
      · intro h hh
        by_cases hk : h = k
        · subst hk
          simp [shared, close] at hh
        · rw [shared, cohorts_close_of_ne hk] at hh
          -- this thread leads no other cohort
          obtain ⟨i', hi', hlead'⟩ := hi.leads h hh
          rw [mem_singleton.mp hi'] at hlead'
          exact absurd (some.inj hlead').symm hk
      · exact fun h hh => by cases hh
      · intro h hh
        cases hh
        simp [shared, close]
    | _ => exact hsimple rfl fun _ _ hcontra => by cases hcontra

theorem leadCode_nil (h : ∀ k, (s.cohorts k).leader ≠ some t) : s.LeadCode t [] :=
  ⟨fun k hk => absurd hk (h k), nofun, nofun⟩

theorem LeadCode.body (h : s.LeadCode t []) (c : CoordCall) : s.LeadCode t c.body := by
  have hmine : ∀ k, (s.cohorts k).leader ≠ some t := by
    intro k hk
    obtain ⟨i, hi, -⟩ := h.leads k hk
    cases hi
  cases c with
  | _ =>
    exact leadCode_singleton (fun k hk => absurd hk (hmine k)) nofun
      nofun

/-- The invariant of the runs in which the leaders stay. -/
structure LedRun (s : Threads Coordinator CoordInstr) : Prop where
  sound : Sound s
  led : Threads.Holds Led LeadCode s

theorem LedRun.step {s s' : Threads Coordinator CoordInstr} (h : LedRun s)
    (hR : Threads.OnInput (fun _ => True) LeadersStay s a)
    (hstep : Coordinator.step s a = some s') : LedRun s' := by
  refine ⟨h.sound.step hstep, ?_⟩
  obtain ⟨t, c, rfl, hcode, rfl⟩ | ⟨t, x, i, o, rfl, hcode, hsteps, rfl⟩ := h.sound.steps hstep
  · have hown := h.led.code t
    rw [hcode] at hown
    exact h.led.start (hown.body c)
  · have hown := h.led.code t
    rw [hcode] at hown
    obtain ⟨hled, hown', hother⟩ :=
      led_of_steps hsteps h.led.shared hown (hR i (by rw [hcode]; rfl))
    exact h.led.run hled hown' hother

theorem ledRun_start (q : QueueProjection) : LedRun (start q) := by
  refine ⟨sound_start q, ⟨fun _ => ⟨fun _ => rfl, fun _ => rfl⟩, fun _ _ => rfl⟩, fun t => ?_⟩
  exact leadCode_nil nofun

theorem claimers_of_steps {j : CoordInstr} {o : Outcome Coordinator CoordInstr}
    (hsteps : Steps s t' x j o) (hj : s.LeadCode t' [j]) (hh : (s.cohorts h).leader = some t)
    (ht : t ≠ t') : ∀ p ∈ (s.cohorts h).claimers, p ∈ (o.shared.cohorts h).claimers := by
  intro p hp
  have hgather : ∀ k p', p ∈ ((s.gather t' k p').cohorts h).claimers := by
    intro k p'
    by_cases hk : h = k
    · subst hk
      simp [gather, hp]
    · rw [cohorts_gather_of_ne hk]
      exact hp
  cases hsteps with
  | claim owner hclaim =>
    rw [owner.shared_resume]
    rcases cohorts_of_claimSteps hclaim with hsame | ⟨c, k, rfl⟩ | ⟨c, k, rfl⟩
    · rw [hsame]
      exact hp
    · cases hclaim with
      | late => exact hp
      | lead | follow => exact hgather k _
    · cases hclaim with
      | drain =>
        have hlead := hj.leader _ (mem_singleton_self _) k rfl
        have hne : h ≠ k := by
          rintro rfl
          rw [hh] at hlead
          exact ht (some.inj hlead)
        rw [shared, cohorts_close_of_ne hne]
        exact hp
  | _ => exact hp

/-! ## A cohort without a leader -/

/-- An open cohort with claimers that is in the map and that nobody is going to drain. -/
structure Orphaned (h : Nat) (s : Threads Coordinator CoordInstr) : Prop where
  formed : s.shared.forming = some h
  opened : (s.shared.cohorts h).closed = false
  claimers : (s.shared.cohorts h).claimers ≠ []
  nobody : ∀ t, ∀ i ∈ s.code t, i.leads? ≠ some h ∧ i.past? ≠ some h

theorem orphaned_of_claimSteps {i : ClaimInstr} (hsteps : ClaimInstr.Steps s t x i o)
    (hformed : s.forming = some h) (hopen : (s.cohorts h).closed = false)
    (hsome : (s.cohorts h).claimers ≠ []) (hleads : i.leads? ≠ some h) (hpast : i.past? ≠ some h) :
    o.shared.forming = some h ∧ (o.shared.cohorts h).closed = false ∧
      (∀ p ∈ (s.cohorts h).claimers, p ∈ (o.shared.cohorts h).claimers) ∧
      ∀ j ∈ o.next?, j.leads? ≠ some h ∧ j.past? ≠ some h := by
  have hunform : ∀ k, some k ≠ some h → (s.unform k).forming = some h ∧
      (s.unform k).cohorts h = s.cohorts h := by
    intro k hk
    unfold unform
    rw [hformed]
    split
    · rename_i hkh
      exact absurd hkh.symm hk
    · exact ⟨hformed, rfl⟩
  cases hsteps with
  | insert c hnone =>
    rw [hformed] at hnone
    cases hnone
  | late c k hclosed =>
    refine ⟨hformed, hopen, fun _ hp => hp, fun j hj => ?_⟩
    cases hj
    refine ⟨fun hcontra => (by cases hcontra), fun hcontra => ?_⟩
    cases hcontra
    rw [hopen] at hclosed
    cases hclosed
  | lead c k _ hempty =>
    have hk : h ≠ k := by
      rintro rfl
      exact hsome hempty
    rw [shared, cohorts_gather_of_ne hk]
    refine ⟨hformed, hopen, fun _ hp => hp, fun j hj => ?_⟩
    cases hj
    exact ⟨fun hcontra => hk (some.inj hcontra).symm, fun hcontra => (by cases hcontra)⟩
  | follow c k =>
    refine ⟨hformed, ?_, fun p hp => ?_, fun j hj => ?_⟩
    · by_cases hk : h = k
      · subst hk
        simpa [shared, gather] using hopen
      · rw [shared, cohorts_gather_of_ne hk]
        exact hopen
    · by_cases hk : h = k
      · subst hk
        simp [shared, gather, hp]
      · rw [shared, cohorts_gather_of_ne hk]
        exact hp
    · cases hj
      exact ⟨fun hcontra => (by cases hcontra), fun hcontra => (by cases hcontra)⟩
  | retry c k | remove c k drained =>
    obtain ⟨hform, hcohort⟩ := hunform k hpast
    rw [shared, hcohort]
    refine ⟨hform, hopen, fun _ hp => hp, fun j hj => ?_⟩
    cases hj
    exact ⟨fun hcontra => (by cases hcontra), fun hcontra => (by cases hcontra)⟩
  | wake c k =>
    refine ⟨hformed, hopen, fun _ hp => hp, fun j hj => ?_⟩
    cases hj
    exact ⟨hleads, fun hcontra => (by cases hcontra)⟩
  | drain c k =>
    have hk : h ≠ k := by
      rintro rfl
      exact hleads rfl
    rw [shared, cohorts_close_of_ne hk]
    refine ⟨hformed, hopen, fun _ hp => hp, fun j hj => ?_⟩
    cases hj
    exact ⟨fun hcontra => (by cases hcontra), fun hcontra => hk (some.inj hcontra).symm⟩
  | _ =>
    refine ⟨hformed, hopen, fun _ hp => hp, fun j hj => ?_⟩
    first
    | cases hj
      done
    | cases hj
      exact ⟨fun hcontra => (by cases hcontra), fun hcontra => (by cases hcontra)⟩

theorem Orphaned.step {s s' : Threads Coordinator CoordInstr} (ho : Orphaned h s) (hs : Sound s)
    (hstep : Coordinator.step s a = some s') :
    Orphaned h s' ∧ ∀ p ∈ (s.shared.cohorts h).claimers, p ∈ (s'.shared.cohorts h).claimers := by
  -- what the other threads have ahead of them does not change
  have hnobody : ∀ (shared : Coordinator) (t : Nat) (code : List CoordInstr),
      (∀ i ∈ code, i.leads? ≠ some h ∧ i.past? ≠ some h) →
      ∀ t', ∀ i ∈ (⟨shared, update s.code t code⟩ : Threads Coordinator CoordInstr).code t',
        i.leads? ≠ some h ∧ i.past? ≠ some h := by
    intro shared t code hcode t' i hi
    by_cases ht : t' = t
    · subst ht
      simp only [update_self] at hi
      exact hcode i hi
    · simp only [update_of_ne ht] at hi
      exact ho.nobody t' i hi
  have hfree : ∀ {i : CoordInstr}, i.claim? = none → i.leads? ≠ some h ∧ i.past? ≠ some h := by
    intro i hi
    simp [CoordInstr.leads?, CoordInstr.past?, hi]
  have hquiet : ∀ (shared : Coordinator) (t : Nat) (code : List CoordInstr),
      shared.forming = s.shared.forming → shared.cohorts = s.shared.cohorts →
      (∀ i ∈ code, i.leads? ≠ some h ∧ i.past? ≠ some h) →
      Orphaned h ⟨shared, update s.code t code⟩ ∧
        ∀ p ∈ (s.shared.cohorts h).claimers, p ∈ (shared.cohorts h).claimers := by
    intro shared t code hform hcohorts hcode
    refine ⟨⟨hform.trans ho.formed, ?_, ?_, hnobody _ _ _ hcode⟩, fun p hp => ?_⟩
    · simp only [hcohorts]
      exact ho.opened
    · simp only [hcohorts]
      exact ho.claimers
    · rw [hcohorts]
      exact hp
  obtain ⟨t, c, rfl, -, rfl⟩ | ⟨t, x, i, o, rfl, hcode, hsteps, rfl⟩ := hs.steps hstep
  · refine hquiet _ t _ rfl rfl fun i hi => ?_
    cases c with
    | _ =>
      rw [mem_singleton.mp hi]
      exact ⟨fun hcontra => (by cases hcontra), fun hcontra => (by cases hcontra)⟩
  · have hi := ho.nobody t i (by rw [hcode]; exact mem_singleton_self i)
    cases hsteps with
    | claim owner hclaim =>
      rename_i j o'
      obtain ⟨hform, hopen, hmem, hnext⟩ := orphaned_of_claimSteps hclaim ho.formed ho.opened
        ho.claimers hi.1 hi.2
      rw [owner.shared_resume]
      refine ⟨⟨hform, hopen, ?_, hnobody _ _ _ fun i' hi' => ?_⟩, hmem⟩
      · obtain ⟨p, hp⟩ := exists_mem_of_ne_nil _ ho.claimers
        exact ne_nil_of_mem (hmem p hp)
      · rcases ClaimOwner.mem_code_resume hi' with ⟨j', hj', rfl⟩ | hnone
        · exact hnext j' hj'
        · exact hfree hnone
    | openConn node max leaseMs =>
      refine hquiet _ t _ rfl rfl fun i' hi' => ?_
      rw [mem_singleton.mp hi']
      exact hfree rfl
    | stream w _ hj =>
      refine hquiet _ t _ rfl rfl fun i' hi' => ?_
      rw [mem_singleton.mp hi']
      rcases hj with rfl | rfl | ⟨jobs, rfl⟩ | rfl | ⟨max, rfl⟩
      · exact hfree rfl
      · exact hfree rfl
      · exact hfree rfl
      · exact hfree rfl
      · exact ⟨fun hcontra => (by cases hcontra), fun hcontra => (by cases hcontra)⟩
    | release | execute | abort | other => exact hquiet _ t [] rfl rfl fun _ hi' => by cases hi'

/-- **An orphaned cohort stays one.**  Whatever is called and run after it, its claimers wait. -/
theorem orphaned_forever {s s' : Threads Coordinator CoordInstr}
    {as : List (ThreadAction CoordCall Wake)} (ho : Orphaned h s) (hs : Sound s)
    (hrun : exec Coordinator.step s as = some s') :
    Orphaned h s' ∧ ∀ p ∈ (s.shared.cohorts h).claimers, p ∈ (s'.shared.cohorts h).claimers := by
  have hinv := exec_invariant step
    (I := fun s' => Sound s' ∧ Orphaned h s' ∧
      ∀ p ∈ (s.shared.cohorts h).claimers, p ∈ (s'.shared.cohorts h).claimers)
    ?_ ⟨hs, ho, fun _ hp => hp⟩ hrun
  · exact hinv.2
  · rintro s₁ a s₂ ⟨hs₁, ho₁, hmem⟩ hstep
    obtain ⟨ho₂, hmem₂⟩ := ho₁.step hs₁ hstep
    exact ⟨hs₁.step hstep, ho₂, fun p hp => hmem₂ p (hmem p hp)⟩

end Coordinator

end Topics
