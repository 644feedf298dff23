import Topics.RouterReplay
import Topics.Lib.Digraph

/-!
# The cycle check of the router graph

`wouldCreateCycleExcluding` is the check with the cycle that the `router_cycle` error reports;
`wouldCreateCycle` forgets the path (`isSome_wouldCreateCycleExcluding`).  The main result says
when an upsert is rejected, what is reported, and that the check keeps the graph acyclic.
-/

namespace Topics

open List Relation Lib

/-- The search of `Lib.Digraph` without its path is `dfs_to`. -/
theorem dfsTo_eq_dfs (edges : List (String × String)) (target : String) (n : Nat)
    (start : String) (s : Search String) (hs : s.found = none) :
    dfsTo edges target n s.visited start =
      ((dfs edges target n start s).found.isSome, (dfs edges target n start s).visited) := by
  induction n generalizing start s with
  | zero => simp [dfsTo, dfs, hs]
  | succ n ih =>
    unfold dfsTo dfs
    split
    · rfl
    · have hhom := @foldl_hom _ _ _ (fun s : Search String => (s.found.isSome, s.visited))
        (fun s next => if s.found.isSome ∨ next ∈ s.visited then s
          else dfs edges target n next s)
        (fun p next => if p.1 then p else if next ∈ p.2 then (false, p.2)
          else dfsTo edges target n p.2 next)
        ((edges.filter fun e => e.1 = start).map Prod.snd)
        ⟨none, start :: s.visited, s.path ++ [start]⟩ (by
          intro s next
          cases hfound : s.found with
          | some p => simp [hfound]
          | none => by_cases hmem : next ∈ s.visited <;> simp [hfound, hmem, ih])
      rw [hs]
      refine hhom.trans ?_
      dsimp only
      split <;> rfl

namespace RouterGraph

/-- The edges of the graph. -/
def edges (g : RouterGraph) : List (String × String) := g.defs.map fun r => (r.source, r.dest)

/-- `would_create_cycle_excluding`: the cycle that an edge from `source` to `dest` closes over
the edges of the routers other than `exclude`. -/
def wouldCreateCycleExcluding (g : RouterGraph) (source dest exclude : String) :
    Option (List String) :=
  if source = dest then some [source, dest]
  else
    let adj := (g.remove exclude).edges
    (dfs adj source (adj.length + 1) dest ⟨none, [], []⟩).found.map (source :: ·)

variable (g : RouterGraph) (source dest exclude : String)

theorem isSome_wouldCreateCycleExcluding :
    (g.wouldCreateCycleExcluding source dest exclude).isSome =
      g.wouldCreateCycle source dest exclude := by
  have hedges : (g.remove exclude).edges = (g.entries.filter fun e => e.router.name ≠ exclude).map
      fun e => (e.router.source, e.router.dest) := by
    simp [edges, defs, remove]
  unfold wouldCreateCycleExcluding wouldCreateCycle
  rw [← hedges]
  dsimp only
  rw [dfsTo_eq_dfs _ _ _ dest ⟨none, [], []⟩ rfl]
  split <;> simp [*]

/-- Either the check reports a cycle through the new edge, or there is none. -/
theorem wouldCreateCycleExcluding_spec :
    (∃ walk, g.wouldCreateCycleExcluding source dest exclude = some (source :: dest :: walk) ∧
        (dest :: walk).IsChain (Edge (g.remove exclude).edges) ∧
        (dest :: walk).getLast? = some source) ∨
      g.wouldCreateCycleExcluding source dest exclude = none ∧
        ¬ReflTransGen (Edge (g.remove exclude).edges) dest source := by
  unfold wouldCreateCycleExcluding
  by_cases hloop : source = dest
  · rw [if_pos hloop]
    exact .inl ⟨[], rfl, .singleton dest, by simp [hloop]⟩
  · rw [if_neg hloop]
    obtain ⟨walk, hfound, hwalk⟩ | ⟨hfound, hnone⟩ :=
      dfs_correct (g.remove exclude).edges source dest
    · exact .inl ⟨walk, by simp [hfound], hwalk⟩
    · exact .inr ⟨by simp [hfound], hnone⟩

/-- A call on the graph. -/
inductive Call where
  | upsert (r : Router)
  | remove (name : String)
  | removeTouchingTopic (topic : String)

/-- A rejected upsert leaves the graph as it was. -/
def call (g : RouterGraph) : Call → RouterGraph
  | .upsert r => ((g.upsert r).map Prod.fst).getD g
  | .remove name => g.remove name
  | .removeTouchingTopic topic => g.removeTouchingTopic topic

variable {g}

theorem edges_insert_subset (r : Router) :
    (g.insert r).edges ⊆ (r.source, r.dest) :: (g.remove r.name).edges := by
  intro e he
  obtain ⟨d, hd, rfl⟩ := mem_map.1 he
  rw [edges, defs_remove]
  obtain rfl | ⟨hold, hname⟩ := mem_defs_insert hd
  · exact mem_cons_self
  · exact mem_cons_of_mem _ (mem_map.2 ⟨d, mem_filter.2 ⟨hold, by simpa using hname⟩, rfl⟩)

theorem upsert_eq_none_iff {r : Router} (hr : r.allowCycle = false) :
    g.upsert r = none ↔ (g.wouldCreateCycleExcluding r.source r.dest r.name).isSome := by
  rw [isSome_wouldCreateCycleExcluding]
  simp [upsert, hr]

theorem acyclic_call (h : Acyclic g.edges) {c : Call}
    (hc : ∀ r, c = .upsert r → r.allowCycle = false) : Acyclic (g.call c).edges := by
  have hremove : ∀ name, Acyclic (g.remove name).edges := by
    intro name
    refine h.mono ?_
    rw [edges, defs_remove]
    exact (filter_sublist.map _).subset
  cases c with
  | upsert r =>
    obtain ⟨walk, hsome, -⟩ | ⟨hnone, hreach⟩ :=
      g.wouldCreateCycleExcluding_spec r.source r.dest r.name
    · rw [call, (upsert_eq_none_iff (hc r rfl)).2 (by rw [hsome]; rfl)]
      exact h
    · have haccept : g.upsert r = some (g.insert r, (g.find r.name).isNone) := by
        refine if_neg ?_
        rw [← isSome_wouldCreateCycleExcluding, hnone]
        simp
      rw [call, haccept]
      exact ((hremove r.name).cons (mt reflTransGen_cons_iff.1 hreach)).mono (edges_insert_subset r)
  | remove name => exact hremove name
  | removeTouchingTopic topic =>
    refine h.mono ?_
    rw [call, edges, defs_removeTouchingTopic]
    exact (filter_sublist.map _).subset

/-- **The cycle check is sound and complete.**  After any calls, an upsert that does not allow
cycles is rejected iff its edge, put in the place of the router's own previous one, closes a
cycle; the reported cycle takes the edge and then existing ones; and while no upsert allows
cycles (those that do are always accepted) the graph has none. -/
theorem cycle_check (calls : List Call) :
    (∀ r : Router, r.allowCycle = false →
      ((calls.foldl call empty).upsert r = none ↔
        ReflTransGen (Edge ((r.source, r.dest) :: ((calls.foldl call empty).remove r.name).edges))
          r.dest r.source) ∧
      ((calls.foldl call empty).upsert r = none → ∃ walk,
        (calls.foldl call empty).wouldCreateCycleExcluding r.source r.dest r.name =
          some (r.source :: r.dest :: walk) ∧
        (r.dest :: walk).IsChain (Edge ((calls.foldl call empty).remove r.name).edges) ∧
        (r.dest :: walk).getLast? = some r.source)) ∧
    ((∀ r, Call.upsert r ∈ calls → r.allowCycle = false) →
      Acyclic (calls.foldl call empty).edges) := by
  refine ⟨fun r hr => ?_, fun hcalls => ?_⟩
  · rw [upsert_eq_none_iff hr, reflTransGen_cons_iff]
    generalize calls.foldl call empty = g
    obtain ⟨walk, hsome, hwalk, hlast⟩ | ⟨hnone, hreach⟩ :=
      g.wouldCreateCycleExcluding_spec r.source r.dest r.name
    · refine ⟨iff_of_true (by rw [hsome]; rfl) ?_, fun _ => ⟨walk, hsome, hwalk, hlast⟩⟩
      exact relationReflTransGen_of_exists_isChain_cons walk hwalk
        (getLast_eq_iff_getLast?_eq_some _ |>.2 hlast)
    · rw [hnone]
      exact ⟨iff_of_false Bool.false_ne_true hreach, fun h => absurd h Bool.false_ne_true⟩
  · refine foldlRecOn calls call (motive := fun g => Acyclic g.edges) ?_ ?_
    · rintro a (hedge | ⟨-, hedge⟩) <;> cases hedge
    · intro g hg c hc
      exact acyclic_call hg fun r hr => hcalls r (hr ▸ hc)

end RouterGraph

end Topics
