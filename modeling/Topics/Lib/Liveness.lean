import Mathlib.Algebra.Order.Group.Nat
import Topics.Lib.Threads

/-!
# What a run must reach

An infinite run of a step function is a sequence of states and, at every moment, an action or
nothing at all; a run that ends is one in which nothing happens from some moment on.
-/

namespace Topics.Lib

universe u v w x

section Runs

variable {S : Type u} {A : Type v} {step : S → A → Option S} {σ : Nat → S} {act : Nat → Option A}

/-- `σ` is an infinite run with the actions `act`; at `none` nothing happens. -/
structure InfRun (step : S → A → Option S) (σ : Nat → S) (act : Nat → Option A) : Prop where
  idle : ∀ n, act n = none → σ (n + 1) = σ n
  move : ∀ n a, act n = some a → step (σ n) a = some (σ (n + 1))

/-- Whenever `P` holds, `Q` holds then or later. -/
def LeadsTo (σ : Nat → S) (P Q : S → Prop) : Prop := ∀ n, P (σ n) → ∃ m, n ≤ m ∧ Q (σ m)

variable {P Q R : S → Prop} {C : S → A → Prop} {μ : S → Nat} {s s' : S} {as : List A} {n : Nat}

theorem LeadsTo.trans (hPQ : LeadsTo σ P Q) (hQR : LeadsTo σ Q R) :
    LeadsTo σ P R := by
  intro n hP
  obtain ⟨m, hnm, hQ⟩ := hPQ n hP
  obtain ⟨k, hmk, hR⟩ := hQR m hQ
  exact ⟨k, hnm.trans hmk, hR⟩

/-- A stage may already reach the goal on the way. -/
theorem LeadsTo.chain (hPQ : LeadsTo σ P fun s => Q s ∨ R s) (hQR : LeadsTo σ Q R) :
    LeadsTo σ P R := by
  intro n hP
  obtain ⟨m, hnm, hQ | hR⟩ := hPQ n hP
  · obtain ⟨k, hmk, hR⟩ := hQR m hQ
    exact ⟨k, hnm.trans hmk, hR⟩
  · exact ⟨m, hnm, hR⟩

/-- **Invariant rule**, at every moment of an infinite run. -/
theorem InfRun.invariant (h : InfRun step σ act) {I : S → Prop}
    (hstep : ∀ s a s', I s → C s a → step s a = some s' → I s')
    (hC : ∀ n a, act n = some a → C (σ n) a) (h0 : I (σ 0)) (n : Nat) : I (σ n) := by
  induction n with
  | zero => exact h0
  | succ n ih =>
    cases ha : act n with
    | none =>
      rw [h.idle n ha]
      exact ih
    | some a => exact hstep _ a _ ih (hC n a ha) (h.move n a ha)

/-- Where `P` can be left only through `Q`, it holds until then, and a rank that no step raises has
not been raised. -/
theorem InfRun.until (h : InfRun step σ act) (hstep : ∀ n a, act n = some a → P (σ n) →
      Q (σ (n + 1)) ∨ P (σ (n + 1)) ∧ μ (σ (n + 1)) ≤ μ (σ n)) {n m : Nat} (hnm : n ≤ m)
    (hP : P (σ n)) :
    (∃ k, n ≤ k ∧ Q (σ k)) ∨ P (σ m) ∧ μ (σ m) ≤ μ (σ n) := by
  induction m, hnm using Nat.le_induction with
  | base => exact .inr ⟨hP, le_rfl⟩
  | succ m hnm ih =>
    rcases ih with hQ | ⟨hPm, hrank⟩
    · exact .inl hQ
    · cases ha : act m with
      | none =>
        rw [h.idle m ha]
        exact .inr ⟨hPm, hrank⟩
      | some a =>
        rcases hstep m a ha hPm with hQ | ⟨hP', hle⟩
        · exact .inl ⟨m + 1, by omega, hQ⟩
        · exact .inr ⟨hP', hle.trans hrank⟩

/-- **The rule for "eventually".**  Every step from `P` reaches `Q` or stays in `P` without raising the
rank; a helpful one lowers it; and while `P` holds a helpful one comes. -/
theorem InfRun.leadsTo_of_helpful (h : InfRun step σ act) {F : A → Prop}
    (hstep : ∀ n a, act n = some a → P (σ n) → Q (σ (n + 1)) ∨
      P (σ (n + 1)) ∧ μ (σ (n + 1)) ≤ μ (σ n) ∧ (F a → μ (σ (n + 1)) < μ (σ n)))
    (hfair : ∀ n, P (σ n) → ∃ m, n ≤ m ∧ (P (σ m) → ∃ a, act m = some a ∧ F a)) :
    LeadsTo σ P Q := by
  have hweak : ∀ n a, act n = some a → P (σ n) →
      Q (σ (n + 1)) ∨ P (σ (n + 1)) ∧ μ (σ (n + 1)) ≤ μ (σ n) := by
    intro n a ha hP
    rcases hstep n a ha hP with hQ | ⟨hP', hle, -⟩
    · exact .inl hQ
    · exact .inr ⟨hP', hle⟩
  -- by induction on the rank: up to the next helpful action it does not grow, and there it falls
  have key : ∀ r n, μ (σ n) ≤ r → P (σ n) → ∃ m, n ≤ m ∧ Q (σ m) := by
    intro r
    induction r with
    | zero =>
      intro n hr hP
      obtain ⟨m, hnm, hact⟩ := hfair n hP
      rcases h.until hweak hnm hP with hQ | ⟨hPm, hrank⟩
      · exact hQ
      · obtain ⟨a, ha, hhelp⟩ := hact hPm
        rcases hstep m a ha hPm with hQ | ⟨-, -, hlt⟩
        · exact ⟨m + 1, by omega, hQ⟩
        · have := hlt hhelp
          omega
    | succ r ih =>
      intro n hr hP
      obtain ⟨m, hnm, hact⟩ := hfair n hP
      rcases h.until hweak hnm hP with hQ | ⟨hPm, hrank⟩
      · exact hQ
      · obtain ⟨a, ha, hhelp⟩ := hact hPm
        rcases hstep m a ha hPm with hQ | ⟨hP', -, hlt⟩
        · exact ⟨m + 1, by omega, hQ⟩
        · have hfall := hlt hhelp
          obtain ⟨k, hk, hQ⟩ := ih (m + 1) (by omega) hP'
          exact ⟨k, by omega, hQ⟩
  exact fun n hP => key (μ (σ n)) n le_rfl hP

/-! ## A finite run, followed by nothing -/

/-- The state after the first `n` actions. -/
def stateAt (step : S → A → Option S) (s : S) (as : List A) (n : Nat) : S :=
  (exec step s (as.take n)).getD s

theorem exec_take_succ (hrun : exec step s as = some s') (n : Nat) :
    ∃ t, exec step s (as.take n) = some t ∧
      match as[n]? with
      | some a => ∃ t', step t a = some t' ∧ exec step s (as.take (n + 1)) = some t'
      | none => t = s' ∧ exec step s (as.take (n + 1)) = some t := by
  induction as generalizing s n with
  | nil =>
    cases hrun
    exact ⟨s', by simp, by simp⟩
  | cons a as ih =>
    obtain ⟨s₁, hs₁, hrest⟩ := (exec_cons_eq_some step).mp hrun
    cases n with
    | zero => exact ⟨s, rfl, s₁, hs₁, by simp [exec, hs₁]⟩
    | succ n =>
      obtain ⟨t, ht, hnext⟩ := ih hrest n
      refine ⟨t, by simp [exec, hs₁, ht], ?_⟩
      simp only [List.getElem?_cons_succ, List.take_succ_cons, exec, hs₁, Option.bind_some]
      exact hnext

theorem infRun_stateAt (hrun : exec step s as = some s') :
    InfRun step (stateAt step s as) fun n => as[n]? := by
  refine ⟨fun n ha => ?_, fun n a ha => ?_⟩
  · obtain ⟨t, ht, hnext⟩ := exec_take_succ hrun n
    simp only [ha] at hnext
    simp only [stateAt, ht, hnext.2]
  · obtain ⟨t, ht, hnext⟩ := exec_take_succ hrun n
    simp only [ha] at hnext
    obtain ⟨t', hstep, ht'⟩ := hnext
    simp only [stateAt, ht, ht', Option.getD_some]
    exact hstep

theorem stateAt_zero (s : S) (as : List A) : stateAt step s as 0 = s := rfl

theorem stateAt_of_length_le (hrun : exec step s as = some s') (hn : as.length ≤ n) :
    stateAt step s as n = s' := by
  simp only [stateAt, List.take_of_length_le hn, hrun, Option.getD_some]

/-- A condition along a finite run holds at every action of it. -/
theorem Along.stateAt (hC : Along step C s as) (hrun : exec step s as = some s') (n : Nat) (a : A)
    (ha : as[n]? = some a) :
    C (stateAt step s as n) a := by
  induction as generalizing s n with
  | nil => cases ha
  | cons b as ih =>
    obtain ⟨s₁, hs₁, hrest⟩ := (exec_cons_eq_some step).mp hrun
    cases n with
    | zero =>
      cases ha
      exact hC.1
    | succ n =>
      have hat : Lib.stateAt step s (b :: as) (n + 1) = Lib.stateAt step s₁ as n := by
        obtain ⟨t, ht, -⟩ := exec_take_succ hrest n
        simp [Lib.stateAt, exec, hs₁, ht]
      rw [hat]
      exact ih (hC.2 s₁ hs₁) hrest n ha

end Runs

/-! ## Threads -/

section Threads

variable {S : Type u} {I : Type v} {C : Type w} {X : Type x} {σ : Nat → Threads S I}
  {act : Nat → Option (ThreadAction C X)}

/-- The next instruction of thread `t` can run. -/
def Threads.Runnable (ready : S → I → Prop) (s : Threads S I) (t : Nat) : Prop :=
  ∃ i ∈ (s.code t).head?, ready s.shared i

/-- Weak fairness: a thread runs again, unless it is blocked at some later moment. -/
def FairThreads (ready : S → I → Prop) (σ : Nat → Threads S I)
    (act : Nat → Option (ThreadAction C X)) : Prop :=
  ∀ t n, ∃ m, n ≤ m ∧ ((σ m).Runnable ready t → ∃ x, act m = some (.run t x))

/-- The thread an action belongs to. -/
def ThreadAction.thread : ThreadAction C X → Nat
  | .start t _ => t
  | .run t _ => t

variable {body : C → List I} {sem : S → Nat → X → I → Option (Outcome S I)}
  {as : List (ThreadAction C X)} {s s' : Threads S I}

/-- A thread that no action of a run belongs to has the code it had. -/
theorem code_of_thread_ne {t : Nat} (hne : ∀ a ∈ as, a.thread ≠ t)
    (hrun : exec (Threads.step body sem) s as = some s') : s'.code t = s.code t := by
  induction as generalizing s with
  | nil =>
    cases hrun
    rfl
  | cons a as ih =>
    obtain ⟨s₁, hs₁, hrest⟩ := (exec_cons_eq_some _).mp hrun
    rw [ih (fun b hb => hne b (List.mem_cons_of_mem a hb)) hrest]
    have ha := hne a List.mem_cons_self
    obtain ⟨t', c, rfl, -, rfl⟩ | ⟨t', x, i, rest, o, rfl, -, -, rfl⟩ :=
      Threads.step_cases body sem hs₁
    all_goals exact Function.update_of_ne (Ne.symm ha) _ _

/-- A finite run at whose end no thread has anything to do is fair. -/
theorem fairThreads_stateAt {ready : S → I → Prop}
    (hrun : exec (Threads.step body sem) s as = some s') (hdone : ∀ t, ¬ s'.Runnable ready t) :
    FairThreads ready (stateAt (Threads.step body sem) s as) fun n => as[n]? := by
  intro t n
  refine ⟨max n as.length, le_max_left _ _, fun hready => ?_⟩
  rw [stateAt_of_length_le hrun (le_max_right _ _)] at hready
  exact absurd hready (hdone t)

end Threads

end Topics.Lib
