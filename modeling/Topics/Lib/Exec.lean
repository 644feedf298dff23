import Mathlib.Data.Option.Basic
import Mathlib.Data.List.Basic

/-!
# Runs of a partial step function

A system is given by a step function `step : S → A → Option S`: action `a` is enabled in
state `s` exactly when `step s a` is defined, and then has one outcome.  A nondeterministic
system puts its choices into the action.  A run is a list of actions.

The module packages the one induction every safety proof over such a system needs.
-/

namespace Topics.Lib

universe u v

variable {S : Type u} {A : Type v} (step : S → A → Option S)

/-- The state after the actions `as` from `s`, if every one of them was enabled. -/
def exec : S → List A → Option S
  | s, [] => some s
  | s, a :: as => (step s a).bind fun s' => exec s' as

@[simp] theorem exec_nil (s : S) : exec step s [] = some s := rfl

variable {s t : S} {a : A} {as : List A} {C D : S → A → Prop} {I : S → Prop}

theorem exec_cons_eq_some :
    exec step s (a :: as) = some t ↔ ∃ s', step s a = some s' ∧ exec step s' as = some t := by
  simp [exec, Option.bind_eq_some_iff]

/-- Every step of the run `as` from `s` meets `C`, as long as the run goes on. -/
def Along (C : S → A → Prop) : S → List A → Prop
  | _, [] => True
  | s, a :: as => C s a ∧ ∀ s', step s a = some s' → Along C s' as

@[simp] theorem along_nil (C : S → A → Prop) (s : S) : Along step C s [] := trivial

/-- Conditions on executable machines can be tested on a run. -/
instance decidableAlong {C : S → A → Prop} [∀ s a, Decidable (C s a)] :
    ∀ s as, Decidable (Along step C s as)
  | _, [] => isTrue trivial
  | s, a :: as =>
    match h : step s a with
    | none => decidable_of_iff (C s a) ⟨fun hc => ⟨hc, fun _ h' => by simp [h] at h'⟩, (·.1)⟩
    | some t =>
      have : Decidable (Along step C t as) := decidableAlong t as
      decidable_of_iff (C s a ∧ Along step C t as)
        ⟨fun hc => ⟨hc.1, fun t' h' => by rw [h, Option.some.injEq] at h'; exact h' ▸ hc.2⟩,
          fun hc => ⟨hc.1, hc.2 t h⟩⟩

theorem Along.and (hC : Along step C s as) (hD : Along step D s as) :
    Along step (fun s a => C s a ∧ D s a) s as := by
  induction as generalizing s with
  | nil => trivial
  | cons a as ih => exact ⟨⟨hC.1, hD.1⟩, fun s' hs' => ih (hC.2 s' hs') (hD.2 s' hs')⟩

theorem Along.mono (hC : Along step C s as) (hD : ∀ s a, C s a → D s a) : Along step D s as := by
  induction as generalizing s with
  | nil => trivial
  | cons a as ih => exact ⟨hD s a hC.1, fun s' hs' => ih (hC.2 s' hs')⟩

/-- A condition on the actions alone joins a condition along the run. -/
theorem Along.and_mem {P : A → Prop} (hC : Along step C s as) (hP : ∀ a ∈ as, P a) :
    Along step (fun s a => P a ∧ C s a) s as := by
  induction as generalizing s with
  | nil => trivial
  | cons a as ih =>
    refine ⟨⟨hP a List.mem_cons_self, hC.1⟩, fun s' hs' => ?_⟩
    exact ih (hC.2 s' hs') fun b hb => hP b (List.mem_cons_of_mem a hb)

/-- **Invariant rule**, for the runs whose steps all meet `C`: a property that each such
step preserves holds in the last state if it holds in the first. -/
theorem exec_invariant_along (hstep : ∀ s a s', I s → C s a → step s a = some s' → I s')
    (hs : I s) (hC : Along step C s as) (hrun : exec step s as = some t) : I t := by
  induction as generalizing s with
  | nil =>
    cases hrun
    exact hs
  | cons a as ih =>
    obtain ⟨s', hs', hrest⟩ := (exec_cons_eq_some step).mp hrun
    exact ih (hstep s a s' hs hC.1 hs') (hC.2 s' hs') hrest

/-- Every run meets the condition that asks for nothing. -/
theorem along_true (s : S) (as : List A) : Along step (fun _ _ => True) s as := by
  induction as generalizing s with
  | nil => trivial
  | cons a as ih => exact ⟨trivial, fun s' _ => ih s'⟩

/-- **Invariant rule**: a property that every step preserves holds in the last state of
every run from a state that has it. -/
theorem exec_invariant (hstep : ∀ s a s', I s → step s a = some s' → I s') (hs : I s)
    (hrun : exec step s as = some t) : I t :=
  exec_invariant_along step (fun s a s' hi _ => hstep s a s' hi) hs (along_true step s as) hrun

end Topics.Lib
