import Mathlib.Data.Finset.Card
import Mathlib.Data.List.Chain

/-!
# Directed graphs given by a list of edges

A depth-first search that shares one visited set between its branches and reports the path it
found, its correctness against `Relation.ReflTransGen`, and the cycles that one more edge
closes.
-/

namespace Topics.Lib

open List Relation

universe u

variable {α : Type u}

def Edge (edges : List (α × α)) (a b : α) : Prop := (a, b) ∈ edges

/-! ## Cycles -/

def Acyclic (edges : List (α × α)) : Prop := ∀ a, ¬TransGen (Edge edges) a a

variable {edges edges' : List (α × α)} {e : α × α} {a b : α}

theorem Acyclic.mono (h : Acyclic edges) (hsub : edges' ⊆ edges) : Acyclic edges' := by
  intro a ha
  exact h a (ha.lift id fun _ _ hedge => hsub hedge)

/-- A walk either avoids the edge or can be cut where it takes it. -/
theorem transGen_cons (h : TransGen (Edge (e :: edges)) a b) :
    TransGen (Edge edges) a b ∨
      ReflTransGen (Edge (e :: edges)) a e.1 ∧ ReflTransGen (Edge (e :: edges)) e.2 b := by
  induction h with
  | single hab =>
    obtain rfl | hab := mem_cons.1 hab
    · exact .inr ⟨.refl, .refl⟩
    · exact .inl (.single hab)
  | tail hwalk hbc ih =>
    obtain ih | ih := ih
    · obtain rfl | hbc := mem_cons.1 hbc
      · exact .inr ⟨hwalk.to_reflTransGen, .refl⟩
      · exact .inl (ih.tail hbc)
    · exact .inr ⟨ih.1, ih.2.tail hbc⟩

theorem Acyclic.cons (h : Acyclic edges) (he : ¬ReflTransGen (Edge (e :: edges)) e.2 e.1) :
    Acyclic (e :: edges) := by
  intro a ha
  obtain ha | ha := transGen_cons ha
  · exact h a ha
  · exact he (ha.2.trans ha.1)

/-- A walk back to the source of the edge need not take the edge itself. -/
theorem reflTransGen_cons_iff :
    ReflTransGen (Edge ((a, b) :: edges)) b a ↔ ReflTransGen (Edge edges) b a := by
  refine ⟨fun h => ?_, fun h => h.lift id fun _ _ hedge => mem_cons_of_mem _ hedge⟩
  refine h.head_induction_on (motive := fun x _ => ReflTransGen (Edge edges) x a) .refl ?_
  intro x y hxy _ ih
  obtain heq | hxy := mem_cons.1 hxy
  · exact (Prod.mk.inj heq).1 ▸ .refl
  · exact ih.head hxy

/-! ## Depth-first search -/

/-- A search: the path it found, the nodes it has entered, and the path it stands on. -/
structure Search (α : Type u) where
  found : Option (List α)
  visited : List α
  path : List α

variable [DecidableEq α]

/-- Search for `target` from `start`.  The first argument bounds the depth. -/
def dfs (edges : List (α × α)) (target : α) : Nat → α → Search α → Search α
  | 0, _, s => s
  | n + 1, start, s =>
    let path := s.path ++ [start]
    if start = target then { s with found := some path, path := path }
    else
      let s' := ((edges.filter fun e => e.1 = start).map Prod.snd).foldl
        (fun s next => if s.found.isSome ∨ next ∈ s.visited then s else dfs edges target n next s)
        { s with visited := start :: s.visited, path := path }
      if s'.found.isSome then s' else { s' with path := s'.path.dropLast }

/-- What a search from the nodes `starts` comes to: it found a walk to the target, or it has
entered all of them, missed the target, and left no edge out of the nodes it entered. -/
inductive Searched (edges : List (α × α)) (target : α) (starts : List α) (s s' : Search α) : Prop
  | found {start walk} (hstart : start ∈ starts) (hwalk : (start :: walk).IsChain (Edge edges))
      (hlast : (start :: walk).getLast? = some target)
      (hfound : s'.found = some (s.path ++ start :: walk))
  | missed (hstarts : starts ⊆ s'.visited) (hvisited : s.visited ⊆ s'.visited)
      (hclosed : ∀ x ∈ s'.visited,
        x ∈ s.visited ∨ x ≠ target ∧ ∀ y, Edge edges x y → y ∈ s'.visited)
      (hfound : s'.found = none) (hpath : s'.path = s.path)

variable {target : α} {s : Search α}

/-- The loop over the neighbours, for any search `call` of one of them. -/
theorem searched_foldl {call : α → Search α → Search α} {entered : List α} (nexts : List α)
    (hcall : ∀ next ∈ nexts, ∀ s : Search α, s.found = none → entered ⊆ s.visited →
      next ∉ s.visited → Searched edges target [next] s (call next s))
    (hs : s.found = none) (hentered : entered ⊆ s.visited) :
    Searched edges target nexts s (nexts.foldl
      (fun s next => if s.found.isSome ∨ next ∈ s.visited then s else call next s) s) := by
  induction nexts generalizing s with
  | nil => exact .missed (nil_subset _) (Subset.refl _) (fun x hx => .inl hx) hs rfl
  | cons next nexts ih =>
    have hrest := fun n hn => hcall n (mem_cons_of_mem next hn)
    rw [foldl_cons]
    by_cases hmem : next ∈ s.visited
    · rw [if_pos (.inr hmem)]
      cases ih hrest hs hentered with
      | found hstart hwalk hlast hfound =>
        exact .found (mem_cons_of_mem _ hstart) hwalk hlast hfound
      | missed hstarts hvisited hclosed hfound hpath =>
        exact .missed (cons_subset.2 ⟨hvisited hmem, hstarts⟩) hvisited hclosed hfound hpath
    · rw [if_neg (by simp [hs, hmem])]
      cases hcall next mem_cons_self s hs hentered hmem with
      | found hstart hwalk hlast hfound =>
        -- the rest of the loop is skipped
        have hstop : ∀ y, (if (call next s).found.isSome ∨ y ∈ (call next s).visited then
            call next s else call y (call next s)) = call next s := by
          simp [hfound]
        rw [foldl_fixed' hstop]
        exact .found (mem_singleton.1 hstart ▸ mem_cons_self) hwalk hlast hfound
      | missed hnext hgrow hinner hnone hback =>
        cases ih hrest hnone (Subset.trans hentered hgrow) with
        | found hstart hwalk hlast hfound =>
          exact .found (mem_cons_of_mem _ hstart) hwalk hlast (hback ▸ hfound)
        | missed hstarts hvisited hclosed hfound hpath =>
          refine .missed (cons_subset.2 ⟨hvisited (hnext mem_cons_self), hstarts⟩)
            (Subset.trans hgrow hvisited) (fun x hx => ?_) hfound (hpath.trans hback)
          obtain hx | hx := hclosed x hx
          · exact (hinner x hx).imp_right fun h => ⟨h.1, fun y hy => hvisited (h.2 y hy)⟩
          · exact .inr hx

/-- Entering a new target of an edge leaves fewer of them. -/
theorem card_remaining_lt {visited visited' : List α} (hsub : visited ⊆ visited')
    (hb : b ∈ edges.map Prod.snd) (hnew : b ∉ visited') :
    ((edges.map Prod.snd).toFinset \ (b :: visited').toFinset).card <
      ((edges.map Prod.snd).toFinset \ visited.toFinset).card := by
  refine Finset.card_lt_card ((Finset.ssubset_iff_of_subset fun x hx => ?_).2 ⟨b, ?_, ?_⟩)
  · rw [Finset.mem_sdiff, mem_toFinset, mem_toFinset] at hx ⊢
    exact ⟨hx.1, fun h => hx.2 (mem_cons_of_mem _ (hsub h))⟩
  · rw [Finset.mem_sdiff, mem_toFinset, mem_toFinset]
    exact ⟨hb, fun h => hnew (hsub h)⟩
  · simp

/-- The search is not cut short while its depth bound covers the targets of edges it has not
entered yet. -/
theorem searched_dfs (target : α) (n : Nat) (start : α) (hs : s.found = none)
    (hfuel : ((edges.map Prod.snd).toFinset \ (start :: s.visited).toFinset).card ≤ n) :
    Searched edges target [start] s (dfs edges target (n + 1) start s) := by
  induction n using Nat.strong_induction_on generalizing start s with
  | h n ih =>
    unfold dfs
    by_cases htarget : start = target
    · rw [if_pos htarget]
      exact .found mem_cons_self (.singleton start) (by rw [htarget]; rfl) rfl
    rw [if_neg htarget]
    have hcall : ∀ next ∈ (edges.filter fun e => e.1 = start).map Prod.snd, ∀ s' : Search α,
        s'.found = none → start :: s.visited ⊆ s'.visited → next ∉ s'.visited →
        Searched edges target [next] s' (dfs edges target n next s') := by
      intro next hnext s' hs' hsub hnew
      have hlt := card_remaining_lt hsub (filter_sublist.map Prod.snd |>.subset hnext) hnew
      obtain ⟨m, rfl⟩ := Nat.exists_eq_add_one_of_ne_zero (n := n) (by omega)
      exact ih m (by omega) next hs' (by omega)
    have hloop := searched_foldl (s := ⟨s.found, start :: s.visited, s.path ++ [start]⟩) _ hcall hs
      (Subset.refl _)
    cases hloop with
    | @found next walk hstart hwalk hlast hfound =>
      have hedge : Edge edges start next := by
        obtain ⟨e, he, rfl⟩ := mem_map.1 hstart
        obtain ⟨he, hsource⟩ := mem_filter.1 he
        exact of_decide_eq_true hsource ▸ he
      rw [if_pos (by rw [hfound]; rfl)]
      exact .found mem_cons_self (isChain_cons_cons.2 ⟨hedge, hwalk⟩) (by simpa using hlast)
        (by simpa using hfound)
    | missed hstarts hvisited hclosed hfound hpath =>
      rw [if_neg (by rw [hfound]; simp)]
      refine .missed (cons_subset.2 ⟨hvisited mem_cons_self, nil_subset _⟩)
        (fun x hx => hvisited (mem_cons_of_mem _ hx)) (fun x hx => ?_) hfound (by simp [hpath])
      obtain hx | hx := hclosed x hx
      · obtain rfl | hx := mem_cons.1 hx
        · refine .inr ⟨htarget, fun y hy => hstarts (mem_map.2 ⟨(x, y), ?_, rfl⟩)⟩
          exact mem_filter.2 ⟨hy, decide_eq_true rfl⟩
        · exact .inl hx
      · exact .inr hx

/-- **Search from scratch**: it reports a walk to the target, or there is none. -/
theorem dfs_correct (edges : List (α × α)) (target start : α) :
    (∃ walk, (dfs edges target (edges.length + 1) start ⟨none, [], []⟩).found =
        some (start :: walk) ∧ (start :: walk).IsChain (Edge edges) ∧
        (start :: walk).getLast? = some target) ∨
      (dfs edges target (edges.length + 1) start ⟨none, [], []⟩).found = none ∧
        ¬ReflTransGen (Edge edges) start target := by
  have hfuel : ((edges.map Prod.snd).toFinset \ [start].toFinset).card ≤ edges.length := by
    calc _ ≤ (edges.map Prod.snd).toFinset.card := Finset.card_le_card Finset.sdiff_subset
      _ ≤ (edges.map Prod.snd).length := toFinset_card_le _
      _ = edges.length := length_map _
  cases searched_dfs (s := ⟨none, [], []⟩) target _ start rfl hfuel with
  | found hstart hwalk hlast hfound =>
    cases mem_singleton.1 hstart
    exact .inl ⟨_, hfound, hwalk, hlast⟩
  | missed hstarts hvisited hclosed hfound hpath =>
    refine .inr ⟨hfound, fun hreach => ?_⟩
    -- what was entered is closed under the edges and does not hold the target
    have hin : ∀ x, ReflTransGen (Edge edges) start x →
        x ∈ (dfs edges target (edges.length + 1) start ⟨none, [], []⟩).visited := by
      intro x hx
      induction hx with
      | refl => exact hstarts mem_cons_self
      | tail _ hedge ih =>
        obtain hnil | hclosed := hclosed _ ih
        · cases hnil
        · exact hclosed.2 _ hedge
    obtain hnil | hne := hclosed target (hin target hreach)
    · cases hnil
    · exact hne.1 rfl

end Topics.Lib
