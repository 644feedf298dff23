import Mathlib.Logic.Function.Basic
import Mathlib.Data.List.Count
import Mathlib.Tactic.Common

/-!
# Locks in a registry

A registry hands out one lock per key.  It makes the lock on demand, shares it by reference count,
and forgets it when a thread that is done with it finds no reference left but its own and the
registry's.  Forgotten locks are made anew, so two locks for one key may exist at the same time.
-/

namespace Topics.Lib

open List Function Option

universe u

/-- Locks are numbered in the order they are made. -/
structure Gates (K : Type u) where
  registry : K → Option Nat
  /-- The references of the threads: which thread, and to which lock. -/
  refs : List (Nat × Nat)
  /-- The thread that holds a lock. -/
  owner : Nat → Option Nat
  fresh : Nat

namespace Gates

variable {K : Type u}

def empty : Gates K := ⟨fun _ => none, [], fun _ => none, 0⟩

/-- The lock of a key, made if there is none; the thread gets a reference to it. -/
def gateFor [DecidableEq K] (G : Gates K) (t : Nat) (k : K) : Gates K × Nat :=
  match G.registry k with
  | some g => ({ G with refs := (t, g) :: G.refs }, g)
  | none =>
    ({ registry := update G.registry k (some G.fresh)
       refs := (t, G.fresh) :: G.refs
       owner := G.owner
       fresh := G.fresh + 1 }, G.fresh)

/-- The references to a lock, the registry's under `k` included. -/
def strongCount (G : Gates K) (k : K) (g : Nat) : Nat :=
  (if G.registry k = some g then 1 else 0) + G.refs.countP (·.2 = g)

/-- Forget the lock of a key, unless somebody else refers to it. -/
def release [DecidableEq K] (G : Gates K) (k : K) (g : Nat) : Gates K :=
  if G.registry k = some g ∧ G.strongCount k g ≤ 2 then
    { G with registry := update G.registry k none }
  else G

/-- Take a lock; blocked while another thread holds it. -/
def lock (G : Gates K) (t g : Nat) : Option (Gates K) :=
  match G.owner g with
  | none => some { G with owner := update G.owner g (some t) }
  | some _ => none

def unlock (G : Gates K) (g : Nat) : Gates K := { G with owner := update G.owner g none }

/-- A thread drops its reference. -/
def leave (G : Gates K) (t : Nat) : Gates K := { G with refs := G.refs.filter (·.1 ≠ t) }

/-! ## The invariant -/

/-- Locks are registered under one key, and a holder has a reference. -/
structure WellFormed (G : Gates K) : Prop where
  registered : ∀ k g, G.registry k = some g → g < G.fresh
  separate : ∀ k k' g, G.registry k = some g → G.registry k' = some g → k = k'
  referred : ∀ e ∈ G.refs, e.2 < G.fresh
  owned : ∀ g t, G.owner g = some t → (t, g) ∈ G.refs

/-- Thread `t` refers to the lock of `k`. -/
structure Joined (G : Gates K) (t : Nat) (k : K) (g : Nat) : Prop where
  registered : G.registry k = some g
  referred : (t, g) ∈ G.refs

/-- Thread `t` holds no lock. -/
def Idle (G : Gates K) (t : Nat) : Prop := ∀ g, G.owner g ≠ some t

/-- Thread `t` holds the lock of `k`, and no other. -/
structure Holds (G : Gates K) (t : Nat) (k : K) (g : Nat) : Prop where
  joined : G.Joined t k g
  owner : G.owner g = some t
  only : ∀ g', G.owner g' = some t → g' = g

/-- Somebody holds the lock of `k`. -/
def Owned (G : Gates K) (k : K) : Prop := ∃ g t, G.registry k = some g ∧ G.owner g = some t

variable {G G' : Gates K} {t u g g' : Nat} {k k' : K}

theorem Holds.owned (h : G.Holds t k g) : G.Owned k := ⟨g, t, h.joined.registered, h.owner⟩

/-- **Mutual exclusion.** -/
theorem Holds.unique (h : G.Holds t k g) (h' : G.Holds u k g') : t = u := by
  have hgate : g = g' := some.inj (h.joined.registered.symm.trans h'.joined.registered)
  have howner := h'.owner
  rw [← hgate, h.owner] at howner
  exact some.inj howner

theorem wellFormed_empty : (empty : Gates K).WellFormed where
  registered _ _ h := by cases h
  separate _ _ _ h := by cases h
  referred _ h := by cases h
  owned _ _ h := by cases h

/-! ## What a thread does to the others -/

/-- What a step of thread `t` leaves to the other threads: their references and their locks. -/
structure Undisturbed (t : Nat) (G G' : Gates K) : Prop where
  joined : ∀ u k g, u ≠ t → G.Joined u k g → G'.Joined u k g
  owner : ∀ u g, u ≠ t → (G'.owner g = some u ↔ G.owner g = some u)

theorem Undisturbed.refl (t : Nat) (G : Gates K) : Undisturbed t G G :=
  ⟨fun _ _ _ _ h => h, fun _ _ _ => Iff.rfl⟩

theorem Undisturbed.idle (h : Undisturbed t G G') (hu : u ≠ t) (hidle : G.Idle u) : G'.Idle u :=
  fun g hg => hidle g ((h.owner u g hu).mp hg)

theorem Undisturbed.holds (h : Undisturbed t G G') (hu : u ≠ t) (hholds : G.Holds u k g) :
    G'.Holds u k g :=
  ⟨h.joined u k g hu hholds.joined, (h.owner u g hu).mpr hholds.owner,
    fun g' hg' => hholds.only g' ((h.owner u g' hu).mp hg')⟩

/-- Two references to one lock are counted twice. -/
theorem two_le_countP {refs : List (Nat × Nat)} (ht : (t, g) ∈ refs) (hu : (u, g) ∈ refs)
    (hne : u ≠ t) : 2 ≤ refs.countP (·.2 = g) := by
  have hmem : (u, g) ∈ refs.erase (t, g) :=
    (mem_erase_of_ne fun heq => hne (congrArg Prod.fst heq)).mpr hu
  have hpos : 0 < (refs.erase (t, g)).countP (·.2 = g) :=
    countP_pos_iff.mpr ⟨(u, g), hmem, by simp⟩
  have hperm := (perm_cons_erase ht).countP_eq (·.2 = g)
  rw [hperm, countP_cons_of_pos (by simp)]
  omega

/-! ## The operations -/

section GateFor

variable [DecidableEq K]

theorem gateFor_joined (G : Gates K) (t : Nat) (k : K) :
    (G.gateFor t k).1.Joined t k (G.gateFor t k).2 := by
  unfold gateFor
  split
  · rename_i g hg
    exact ⟨hg, mem_cons_self⟩
  · exact ⟨update_self .., mem_cons_self⟩

@[simp] theorem gateFor_owner (G : Gates K) (t : Nat) (k : K) :
    (G.gateFor t k).1.owner = G.owner := by
  unfold gateFor
  split <;> rfl

theorem registry_gateFor (h : G.registry k' = some g) : (G.gateFor t k).1.registry k' = some g := by
  unfold gateFor
  split
  · exact h
  · -- a key that already has its lock is not the one that gets a new one
    rename_i hnone
    have hne : k' ≠ k := by
      rintro rfl
      rw [h] at hnone
      cases hnone
    exact (update_of_ne hne ..).trans h

theorem undisturbed_gateFor (G : Gates K) (t : Nat) (k : K) :
    Undisturbed t G (G.gateFor t k).1 := by
  refine ⟨fun u k' g _ h => ⟨registry_gateFor h.registered, ?_⟩, fun u g _ => by rw [gateFor_owner]⟩
  unfold gateFor
  split <;> exact mem_cons_of_mem _ h.referred

theorem WellFormed.gateFor (h : G.WellFormed) (t : Nat) (k : K) : (G.gateFor t k).1.WellFormed := by
  unfold Gates.gateFor
  split
  · rename_i g hg
    refine ⟨h.registered, h.separate, fun e he => ?_, fun g' t' ho => ?_⟩
    · rcases mem_cons.mp he with rfl | he
      · exact h.registered k g hg
      · exact h.referred e he
    · exact mem_cons_of_mem _ (h.owned g' t' ho)
  · -- a new lock: its number is not in use yet
    have hupdate : ∀ k' g, update G.registry k (some G.fresh) k' = some g →
        (k' = k ∧ g = G.fresh) ∨ G.registry k' = some g := by
      intro k' g hg
      by_cases hk : k' = k
      · subst hk
        rw [update_self] at hg
        exact .inl ⟨rfl, (some.inj hg).symm⟩
      · rw [update_of_ne hk] at hg
        exact .inr hg
    refine ⟨fun k' g hg => ?_, fun k₁ k₂ g h₁ h₂ => ?_, fun e he => ?_, fun g' t' ho => ?_⟩
    · rcases hupdate k' g hg with ⟨-, rfl⟩ | hg
      · exact Nat.lt_succ_self _
      · exact Nat.lt_succ_of_lt (h.registered k' g hg)
    · rcases hupdate k₁ g h₁ with ⟨hk₁, hg₁⟩ | hold₁ <;> rcases hupdate k₂ g h₂ with ⟨hk₂, hg₂⟩ | hold₂
      · rw [hk₁, hk₂]
      · exact absurd (h.registered k₂ g hold₂) (hg₁ ▸ Nat.lt_irrefl _)
      · exact absurd (h.registered k₁ g hold₁) (hg₂ ▸ Nat.lt_irrefl _)
      · exact h.separate k₁ k₂ g hold₁ hold₂
    · rcases mem_cons.mp he with rfl | he
      · exact Nat.lt_succ_self _
      · exact Nat.lt_succ_of_lt (h.referred e he)
    · exact mem_cons_of_mem _ (h.owned g' t' ho)

end GateFor

section Lock

theorem lock_eq_some (h : G.lock t g = some G') :
    G.owner g = none ∧ G' = { G with owner := update G.owner g (some t) } := by
  unfold lock at h
  split at h
  · rename_i hnone
    exact ⟨hnone, (some.inj h).symm⟩
  · cases h

theorem undisturbed_lock (h : G.lock t g = some G') : Undisturbed t G G' := by
  obtain ⟨hnone, rfl⟩ := lock_eq_some h
  refine ⟨fun u k g' _ hj => ⟨hj.registered, hj.referred⟩, fun u g' hu => ?_⟩
  by_cases hg : g' = g
  · subst hg
    simp only [update_self, hnone, some.injEq, reduceCtorEq, iff_false]
    exact Ne.symm hu
  · simp only [update_of_ne hg]

theorem holds_lock (hj : G.Joined t k g) (hidle : G.Idle t) (h : G.lock t g = some G') :
    G'.Holds t k g := by
  obtain ⟨-, rfl⟩ := lock_eq_some h
  refine ⟨⟨hj.registered, hj.referred⟩, update_self .., fun g' hg' => ?_⟩
  by_contra hne
  exact hidle g' ((update_of_ne hne ..).symm.trans hg')

theorem WellFormed.lock (h : G.WellFormed) (hj : (t, g) ∈ G.refs) (hlock : G.lock t g = some G') :
    G'.WellFormed := by
  obtain ⟨-, rfl⟩ := lock_eq_some hlock
  refine { h with owned := fun g' u ho => ?_ }
  by_cases hg : g' = g
  · subst hg
    have hu : t = u := by simpa using ho
    exact hu ▸ hj
  · exact h.owned g' u ((update_of_ne hg ..).symm.trans ho)

theorem owned_of_lock (h : G.lock t g = some G') (hk : G.Owned k) : G'.Owned k := by
  obtain ⟨hnone, rfl⟩ := lock_eq_some h
  obtain ⟨g', u, hg', ho⟩ := hk
  refine ⟨g', u, hg', ?_⟩
  have hne : g' ≠ g := by
    rintro rfl
    rw [hnone] at ho
    cases ho
  exact (update_of_ne hne ..).trans ho

end Lock

section Unlock

theorem undisturbed_unlock (h : G.Holds t k g) : Undisturbed t G (G.unlock g) := by
  refine ⟨fun u k' g' _ hj => ⟨hj.registered, hj.referred⟩, fun u g' hu => ?_⟩
  by_cases hg : g' = g
  · subst hg
    simp only [unlock, update_self, h.owner, some.injEq, reduceCtorEq, false_iff]
    exact Ne.symm hu
  · simp only [unlock, update_of_ne hg]

theorem idle_unlock (h : G.Holds t k g) : (G.unlock g).Idle t := by
  intro g' hg'
  by_cases hg : g' = g
  · subst hg
    simp [unlock] at hg'
  · exact hg (h.only g' ((update_of_ne hg ..).symm.trans hg'))

theorem WellFormed.unlock (h : G.WellFormed) (g : Nat) : (G.unlock g).WellFormed := by
  refine { h with owned := fun g' u ho => h.owned g' u ?_ }
  by_cases hg : g' = g
  · subst hg
    simp [Gates.unlock] at ho
  · exact (update_of_ne hg ..).symm.trans ho

/-- Of all keys, only that of the lock is free afterwards. -/
theorem owned_unlock (hwf : G.WellFormed) (h : G.Holds t k g) (hk : G.Owned k') :
    (G.unlock g).Owned k' ∨ k' = k := by
  obtain ⟨g', u, hg', ho⟩ := hk
  by_cases hg : g' = g
  · subst hg
    exact .inr (hwf.separate k' k g' hg' h.joined.registered)
  · exact .inl ⟨g', u, hg', (update_of_ne hg ..).trans ho⟩

end Unlock

section Release

variable [DecidableEq K]

@[simp] theorem release_owner (G : Gates K) (k : K) (g : Nat) :
    (G.release k g).owner = G.owner := by
  unfold release
  split <;> rfl

@[simp] theorem release_refs (G : Gates K) (k : K) (g : Nat) : (G.release k g).refs = G.refs := by
  unfold release
  split <;> rfl

theorem registry_release (G : Gates K) (k : K) (g : Nat) (h : (G.release k g).registry k' = some g') :
    G.registry k' = some g' := by
  unfold release at h
  split at h
  · by_cases hk : k' = k
    · subst hk
      simp at h
    · exact (update_of_ne hk ..).symm.trans h
  · exact h

/-- **A lock that somebody else refers to is not forgotten.** -/
theorem undisturbed_release (hj : G.Joined t k g) : Undisturbed t G (G.release k g) := by
  refine ⟨fun u k' g' hu h => ⟨?_, ?_⟩, fun u g' _ => by rw [release_owner]⟩
  · unfold release
    split
    · rename_i hforget
      have hne : k' ≠ k := by
        rintro rfl
        have hg : g' = g := some.inj (h.registered.symm.trans hj.registered)
        have htwo := two_le_countP hj.referred (hg ▸ h.referred) hu
        have hle := hforget.2
        rw [strongCount, if_pos hforget.1] at hle
        omega
      exact (update_of_ne hne ..).trans h.registered
    · exact h.registered
  · rw [release_refs]
    exact h.referred

theorem WellFormed.release (h : G.WellFormed) (k : K) (g : Nat) : (G.release k g).WellFormed := by
  have hfresh : (G.release k g).fresh = G.fresh := by
    unfold Gates.release
    split <;> rfl
  refine ⟨fun k' g' hg' => ?_, fun k₁ k₂ g' h₁ h₂ => ?_, ?_, ?_⟩
  · rw [hfresh]
    exact h.registered k' g' (registry_release G k g hg')
  · exact h.separate k₁ k₂ g' (registry_release G k g h₁) (registry_release G k g h₂)
  · rw [release_refs, hfresh]
    exact h.referred
  · rw [release_refs, release_owner]
    exact h.owned

/-- Nobody holds a lock that is forgotten. -/
theorem owned_release (hwf : G.WellFormed) (hj : G.Joined t k g) (hidle : G.Idle t)
    (hk : G.Owned k') : (G.release k g).Owned k' := by
  obtain ⟨g', u, hg', ho⟩ := hk
  have hu : u ≠ t := by
    rintro rfl
    exact hidle g' ho
  have hjoined := (undisturbed_release hj).joined u k' g' hu ⟨hg', hwf.owned g' u ho⟩
  exact ⟨g', u, hjoined.registered, by rw [release_owner]; exact ho⟩

end Release

section Leave

theorem undisturbed_leave (G : Gates K) (t : Nat) : Undisturbed t G (G.leave t) := by
  refine ⟨fun u k g hu h => ⟨h.registered, mem_filter.mpr ⟨h.referred, ?_⟩⟩, fun _ _ _ => Iff.rfl⟩
  simpa using hu

theorem WellFormed.leave (h : G.WellFormed) (hidle : G.Idle t) : (G.leave t).WellFormed := by
  refine ⟨h.registered, h.separate, fun e he => h.referred e (mem_filter.mp he).1,
    fun g u ho => mem_filter.mpr ⟨h.owned g u ho, ?_⟩⟩
  have hu : u ≠ t := by
    rintro rfl
    exact hidle g ho
  simpa using hu

end Leave

end Gates

end Topics.Lib
