import Mathlib.Logic.Function.Basic
import Topics.Lib.Exec

/-!
# Threads over a shared state

Calls that run concurrently, each as a list of atomic instructions over one shared state.  An
instruction may be blocked, may replace itself by further instructions, and may end its call
early; what the environment decides comes in with the action.

* `Threads.step`: a thread starts a call, or runs its next instruction;
* `Threads.invariant`: a property of the shared state and one of the code each thread has left,
  shown instruction by instruction, hold in every interleaving.  The second one has to survive
  the instructions of the other threads;
* `Threads.Holds.stepOn`: one step, under a condition on the calls and on the inputs;
* `Threads.invariant_with`: the same for an invariant that remembers something of the run;
* `Ordered`: in the code of a thread, what an instruction needs is met or provided before it.
-/

namespace Topics.Lib

open Function List

universe u v w x

/-- What an instruction leaves behind. -/
inductive Outcome (S : Type u) (I : Type v) where
  /-- Go on with `more`, then with the rest of the call. -/
  | next (shared : S) (more : List I)
  /-- The call is over. -/
  | stop (shared : S)

namespace Outcome

variable {S : Type u} {I : Type v}

def shared : Outcome S I → S
  | next s _ => s
  | stop s => s

/-- The code a call is left with, if `rest` followed the instruction. -/
def code (o : Outcome S I) (rest : List I) : List I :=
  match o with
  | next _ more => more ++ rest
  | stop _ => []

@[simp] theorem shared_next (s : S) (more : List I) : (next s more).shared = s := rfl

@[simp] theorem shared_stop (s : S) : (stop s : Outcome S I).shared = s := rfl

end Outcome

/-- The shared state, and what every thread has left to do. -/
structure Threads (S : Type u) (I : Type v) where
  shared : S
  code : Nat → List I

/-- `C` are the calls, `X` what the environment decides. -/
inductive ThreadAction (C : Type w) (X : Type x) where
  | start (t : Nat) (call : C)
  | run (t : Nat) (input : X)

namespace Threads

variable {S : Type u} {I : Type v} {C : Type w} {X : Type x}

section Step

variable (body : C → List I) (sem : S → Nat → X → I → Option (Outcome S I))

def step (s : Threads S I) : ThreadAction C X → Option (Threads S I)
  | .start t c =>
    match s.code t with
    | [] => some ⟨s.shared, update s.code t (body c)⟩
    | _ :: _ => none
  | .run t x =>
    match s.code t with
    | [] => none
    | i :: rest =>
      (sem s.shared t x i).map fun o => ⟨o.shared, update s.code t (o.code rest)⟩

/-- A condition on the instructions of a run. -/
def OnRun (P : S → Nat → I → Prop) (s : Threads S I) : ThreadAction C X → Prop
  | .start .. => True
  | .run t _ =>
    match s.code t with
    | [] => True
    | i :: _ => P s.shared t i

instance {P : S → Nat → I → Prop} [∀ s t i, Decidable (P s t i)] (s : Threads S I) :
    ∀ a : ThreadAction C X, Decidable (OnRun P s a)
  | .start .. => isTrue trivial
  | .run t _ =>
    match h : s.code t with
    | [] => isTrue (by simp [OnRun, h])
    | i :: _ => decidable_of_iff (P s.shared t i) (by simp [OnRun, h])

/-- **Inversion of `step`.** -/
theorem step_cases {s s' : Threads S I} {a : ThreadAction C X} (h : step body sem s a = some s') :
    (∃ t c, a = .start t c ∧ s.code t = [] ∧
      s' = ⟨s.shared, update s.code t (body c)⟩) ∨
    ∃ t x i rest o, a = .run t x ∧ s.code t = i :: rest ∧ sem s.shared t x i = some o ∧
      s' = ⟨o.shared, update s.code t (o.code rest)⟩ := by
  cases a with
  | start t c =>
    simp only [step] at h
    split at h
    · rename_i hcode
      cases h
      exact .inl ⟨t, c, rfl, hcode, rfl⟩
    · cases h
  | run t x =>
    simp only [step] at h
    split at h
    · cases h
    · rename_i i rest hcode
      obtain ⟨o, ho, rfl⟩ := Option.map_eq_some_iff.mp h
      exact .inr ⟨t, x, i, rest, o, rfl, hcode, ho, rfl⟩

end Step

variable {body : C → List I} {sem : S → Nat → X → I → Option (Outcome S I)}

/-- The invariant: `P` of the shared state, and `Q` of what each thread has left. -/
structure Holds (P : S → Prop) (Q : S → Nat → List I → Prop) (s : Threads S I) : Prop where
  shared : P s.shared
  code : ∀ t, Q s.shared t (s.code t)

/-- One instruction keeps the invariant for its own thread, and what the others rely on. -/
def Keeps (R : S → Nat → I → Prop) (P : S → Prop) (Q : S → Nat → List I → Prop)
    (sem : S → Nat → X → I → Option (Outcome S I)) : Prop :=
  ∀ ⦃s t x i rest o⦄, R s t i → P s → Q s t (i :: rest) → sem s t x i = some o →
    P o.shared ∧ Q o.shared t (o.code rest) ∧
      ∀ t' code, t' ≠ t → Q s t' code → Q o.shared t' code

variable {R : S → Nat → I → Prop} {P : S → Prop} {Q : S → Nat → List I → Prop}

variable {s s' : Threads S I} {t : Nat} {as : List (ThreadAction C X)}

theorem Holds.start (h : Holds P Q s) {code : List I} (hcode : Q s.shared t code) :
    Holds P Q ⟨s.shared, update s.code t code⟩ :=
  ⟨h.shared, (forall_update_iff s.code (Q s.shared)).mpr ⟨hcode, fun t' _ => h.code t'⟩⟩

theorem Holds.run {P' : S → Prop} {Q' : S → Nat → List I → Prop} {s₁ : S} {code : List I}
    (h : Holds P Q s) (hshared : P' s₁) (hown : Q' s₁ t code)
    (hother : ∀ t' code, t' ≠ t → Q s.shared t' code → Q' s₁ t' code) :
    Holds P' Q' ⟨s₁, update s.code t code⟩ :=
  ⟨hshared, (forall_update_iff s.code (Q' s₁)).mpr
    ⟨hown, fun t' ht => hother t' _ ht (h.code t')⟩⟩

theorem Holds.step {a : ThreadAction C X} (h : Holds P Q s)
    (hstart : ∀ s t c, P s → Q s t (body c)) (hkeeps : Keeps R P Q sem) (hR : OnRun R s a)
    (hstep : step body sem s a = some s') : Holds P Q s' := by
  obtain ⟨t, c, rfl, -, rfl⟩ | ⟨t, x, i, rest, o, rfl, hcode, ho, rfl⟩ := step_cases body sem hstep
  · exact h.start (hstart _ _ _ h.shared)
  · have hQ := h.code t
    rw [hcode] at hQ
    have hRi : R s.shared t i := by
      simpa only [OnRun, hcode] using hR
    obtain ⟨hP, hown, hother⟩ := hkeeps hRi h.shared hQ ho
    exact h.run hP hown hother

/-- **Invariant rule for interleavings.** -/
theorem invariant (hstart : ∀ s t c, P s → Q s t (body c)) (hkeeps : Keeps R P Q sem)
    (h : Holds P Q s) (halong : Along (Threads.step body sem) (OnRun R) s as)
    (hrun : exec (Threads.step body sem) s as = some s') : Holds P Q s' :=
  exec_invariant_along _ (fun _ _ _ hi hR hs => hi.step hstart hkeeps hR hs) h halong hrun

theorem onRun_true (s : Threads S I) (a : ThreadAction C X) : OnRun (fun _ _ _ => True) s a := by
  cases a with
  | start => trivial
  | run t x =>
    simp only [OnRun]
    split <;> trivial

/-- The rule where the steps meet no condition. -/
theorem invariant_of_all (hstart : ∀ s t c, P s → Q s t (body c))
    (hkeeps : Keeps (fun _ _ _ => True) P Q sem) (h : Holds P Q s)
    (hrun : exec (Threads.step body sem) s as = some s') :
    Holds P Q s' :=
  exec_invariant _ (fun s a _ hi hs => hi.step hstart hkeeps (onRun_true s a) hs) h hrun

/-! ### Conditions on calls and inputs -/

section Inputs

variable {A : C → Prop} {R : S → Nat → X → I → Prop}

/-- A condition on the calls that start, and on the instructions together with their inputs. -/
def OnInput (A : C → Prop) (R : S → Nat → X → I → Prop) (s : Threads S I) : ThreadAction C X → Prop
  | .start _ c => A c
  | .run t x => ∀ i ∈ (s.code t).head?, R s.shared t x i

instance [∀ c, Decidable (A c)] [∀ s t x i, Decidable (R s t x i)] (s : Threads S I) :
    ∀ a, Decidable (OnInput A R s a)
  | .start _ c => inferInstanceAs (Decidable (A c))
  | .run t x => inferInstanceAs (Decidable (∀ i ∈ (s.code t).head?, R s.shared t x i))

/-- The rule for an invariant of threads that a call finds as the last one left it. -/
theorem Holds.stepOn {s s' : Threads S I} {a : ThreadAction C X} (h : Holds P Q s)
    (hstart : ∀ s t c, P s → Q s t [] → A c → Q s t (body c))
    (hkeeps : ∀ ⦃s t x i rest o⦄, R s t x i → P s → Q s t (i :: rest) → sem s t x i = some o →
      P o.shared ∧ Q o.shared t (o.code rest) ∧
        ∀ t' code, t' ≠ t → Q s t' code → Q o.shared t' code)
    (ha : OnInput A R s a) (hstep : Threads.step body sem s a = some s') : Holds P Q s' := by
  obtain ⟨t, c, rfl, hcode, rfl⟩ | ⟨t, x, i, rest, o, rfl, hcode, ho, rfl⟩ := step_cases body sem hstep
  · have hQ := h.code t
    rw [hcode] at hQ
    exact h.start (hstart _ _ _ h.shared hQ ha)
  · have hQ := h.code t
    rw [hcode] at hQ
    obtain ⟨hP, hown, hother⟩ := hkeeps (ha i (by rw [hcode]; rfl)) h.shared hQ ho
    exact h.run hP hown hother

end Inputs

/-! ### Histories -/

section History

universe y

variable {H : Type y} {P : H → S → Prop} {Q : H → S → Nat → List I → Prop}

/-- One instruction keeps an invariant that speaks about a history, for some continuation of the
history. -/
def KeepsWith (R : S → Nat → I → Prop) (P : H → S → Prop) (Q : H → S → Nat → List I → Prop)
    (sem : S → Nat → X → I → Option (Outcome S I)) : Prop :=
  ∀ ⦃h s t x i rest o⦄, R s t i → P h s → Q h s t (i :: rest) → sem s t x i = some o →
    ∃ h', P h' o.shared ∧ Q h' o.shared t (o.code rest) ∧
      ∀ t' code, t' ≠ t → Q h s t' code → Q h' o.shared t' code

theorem Holds.stepWith {h : H} {s s' : Threads S I} {a : ThreadAction C X}
    (hs : Holds (P h) (Q h) s) (hstart : ∀ h s t c, P h s → Q h s t (body c))
    (hkeeps : KeepsWith R P Q sem) (hR : OnRun R s a) (hstep : Threads.step body sem s a = some s') :
    ∃ h', Holds (P h') (Q h') s' := by
  obtain ⟨t, c, rfl, -, rfl⟩ | ⟨t, x, i, rest, o, rfl, hcode, ho, rfl⟩ := step_cases body sem hstep
  · exact ⟨h, hs.start (hstart h _ _ _ hs.shared)⟩
  · have hQ := hs.code t
    rw [hcode] at hQ
    have hRi : R s.shared t i := by
      simpa only [OnRun, hcode] using hR
    obtain ⟨h', hP, hown, hother⟩ := hkeeps hRi hs.shared hQ ho
    exact ⟨h', hs.run hP hown hother⟩

/-- **Invariant rule with a history**: what the invariant needs to remember of a run need not be
part of the state. -/
theorem invariant_with (hstart : ∀ h s t c, P h s → Q h s t (body c))
    (hkeeps : KeepsWith R P Q sem) {h : H} {s s' : Threads S I} (hs : Holds (P h) (Q h) s)
    {as : List (ThreadAction C X)} (halong : Along (Threads.step body sem) (OnRun R) s as)
    (hrun : exec (Threads.step body sem) s as = some s') : ∃ h', Holds (P h') (Q h') s' := by
  refine exec_invariant_along _ (I := fun s => ∃ h, Holds (P h) (Q h) s) ?_ ⟨h, hs⟩ halong hrun
  rintro s a s' ⟨h, hs⟩ hR hstep
  exact hs.stepWith hstart hkeeps hR hstep

end History

end Threads

/-! ## Program order -/

section Ordered

variable {I : Type v} {O : Type w} (needs provides : I → List O)

/-- What an instruction needs is met by now, or an instruction before it provides it. -/
def Ordered (met : O → Prop) : List I → Prop
  | [] => True
  | i :: rest => (∀ o ∈ needs i, met o) ∧ Ordered (fun o => met o ∨ o ∈ provides i) rest

variable {needs provides} {met met' : O → Prop}

theorem Ordered.mono {code : List I} (h : Ordered needs provides met code)
    (hmet : ∀ o, met o → met' o) : Ordered needs provides met' code := by
  induction code generalizing met met' with
  | nil => trivial
  | cons i rest ih =>
    refine ⟨fun o ho => hmet o (h.1 o ho), ih h.2 fun o ho => ?_⟩
    exact ho.imp_left (hmet o)

theorem ordered_append {code rest : List I} :
    Ordered needs provides met (code ++ rest) ↔ Ordered needs provides met code ∧
      Ordered needs provides (fun o => met o ∨ ∃ i ∈ code, o ∈ provides i) rest := by
  induction code generalizing met with
  | nil => simp [Ordered]
  | cons i code ih =>
    simp only [cons_append, Ordered, ih, mem_cons, exists_eq_or_imp, and_assoc, or_assoc]

theorem ordered_of_no_needs {code : List I} (h : ∀ i ∈ code, needs i = []) :
    Ordered needs provides met code := by
  induction code generalizing met with
  | nil => trivial
  | cons i rest ih =>
    refine ⟨fun o ho => ?_, ih fun j hj => h j (mem_cons_of_mem i hj)⟩
    rw [h i mem_cons_self] at ho
    cases ho

/-- A last instruction finds what the code before it provides. -/
theorem ordered_concat {code : List I} {i : I} (h : ∀ j ∈ code, needs j = [])
    (hi : ∀ o ∈ needs i, met o ∨ ∃ j ∈ code, o ∈ provides j) :
    Ordered needs provides met (code ++ [i]) :=
  ordered_append.mpr ⟨ordered_of_no_needs h, hi, trivial⟩

/-- An instruction that leaves what it provided met, or to be provided by what it goes on with,
keeps the order. -/
theorem Ordered.run {i : I} {more rest : List I} (h : Ordered needs provides met (i :: rest))
    (hmet : ∀ o, met o → met' o)
    (hprov : ∀ o ∈ provides i, met' o ∨ ∃ j ∈ more, o ∈ provides j)
    (hmore : Ordered needs provides met' more) : Ordered needs provides met' (more ++ rest) := by
  refine ordered_append.mpr ⟨hmore, h.2.mono fun o ho => ?_⟩
  rcases ho with ho | ho
  · exact .inl (hmet o ho)
  · exact hprov o ho

end Ordered

end Topics.Lib
