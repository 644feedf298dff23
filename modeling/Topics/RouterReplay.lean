import Topics.Engine

/-!
# Replay of the router graph

What a log makes of the router definitions.  Cursors and totals differ between a live graph
and a replayed one; the definitions do not depend on them.
-/

namespace Topics

open List Engine

variable {Blob : Type}

namespace RouterGraph

def defs (g : RouterGraph) : List Router := g.entries.map (·.router)

theorem get_eq_find_defs (g : RouterGraph) (name : String) :
    g.get name = g.defs.find? fun r => r.name = name := by
  unfold get find defs
  rw [find?_map]
  rfl

theorem isSome_find (g : RouterGraph) (name : String) :
    (g.find name).isSome = (g.get name).isSome := by
  unfold get
  rw [Option.isSome_map]

theorem defs_insert (g : RouterGraph) (r : Router) :
    (g.insert r).defs =
      if (g.get r.name).isSome then g.defs.map fun d => if d.name = r.name then r else d
      else g.defs ++ [r] := by
  unfold insert
  rw [isSome_find]
  split
  · unfold defs
    rw [map_map, map_map]
    refine map_congr_left fun e _ => ?_
    simp only [Function.comp_apply]
    split <;> rfl
  · simp [defs]

variable {g g' : RouterGraph}

theorem defs_map {f : RouterEntry → RouterEntry} (h : ∀ e, (f e).router = e.router) :
    (RouterGraph.mk (g.entries.map f)).defs = g.defs := by
  unfold defs
  rw [map_map]
  exact map_congr_left fun e _ => h e

theorem defs_seed (g : RouterGraph) (name : String) (cursor destBase : Nat) :
    (g.seed name cursor destBase).defs = g.defs :=
  defs_map fun e => by split <;> rfl

theorem defs_noteForwarded (g : RouterGraph) (name : String) (srcHead count : Nat) :
    (g.noteForwarded name srcHead count).defs = g.defs :=
  defs_map fun e => by split <;> rfl

theorem defs_seedDestBase (g : RouterGraph) (name : String) (base : Nat) :
    (g.seedDestBase name base).defs = g.defs :=
  defs_map fun e => by split <;> rfl

theorem defs_remove (g : RouterGraph) (name : String) :
    (g.remove name).defs = g.defs.filter fun r => r.name ≠ name := by
  unfold remove defs
  rw [filter_map]
  rfl

theorem defs_removeTouchingTopic (g : RouterGraph) (topic : String) :
    (g.removeTouchingTopic topic).defs = g.defs.filter fun r => !touches r topic := by
  unfold removeTouchingTopic defs
  rw [filter_map]
  rfl

theorem wouldCreateCycle_congr (h : g.defs = g'.defs) (source dest exclude : String) :
    g.wouldCreateCycle source dest exclude = g'.wouldCreateCycle source dest exclude := by
  have hedges : ∀ g : RouterGraph,
      ((g.entries.filter fun e => e.router.name ≠ exclude).map
        fun e => (e.router.source, e.router.dest)) =
      (g.defs.filter fun r => r.name ≠ exclude).map fun r => (r.source, r.dest) := by
    intro g
    rw [defs, filter_map, map_map]
    rfl
  unfold wouldCreateCycle
  rw [hedges g, hedges g', h]

theorem get_congr (h : g.defs = g'.defs) (name : String) :
    g.get name = g'.get name := by
  rw [get_eq_find_defs, get_eq_find_defs, h]

theorem defs_insert_congr (h : g.defs = g'.defs) (r : Router) :
    (g.insert r).defs = (g'.insert r).defs := by
  rw [defs_insert, defs_insert, get_congr h, h]

theorem upsert_congr (h : g.defs = g'.defs) (r : Router) :
    (g.upsert r).map (fun p => (p.1.defs, p.2)) = (g'.upsert r).map fun p => (p.1.defs, p.2) := by
  unfold upsert
  rw [wouldCreateCycle_congr h]
  split
  · rfl
  · have hfresh : (g.find r.name).isNone = (g'.find r.name).isNone := by
      rw [← Option.not_isSome, ← Option.not_isSome, isSome_find, isSome_find, get_congr h]
    simp only [Option.map_some, defs_insert_congr h r, hfresh]

theorem defs_applyCreate (g : RouterGraph) (op : RouterOp) :
    (g.applyCreate op).defs = ((g.upsert op.router).map fun p => p.1.defs).getD g.defs := by
  unfold applyCreate
  cases g.upsert op.router with
  | none => rfl
  | some p =>
    obtain ⟨g', created⟩ := p
    cases created with
    | false => rfl
    | true => exact defs_seed g' _ _ _

theorem defs_applyCreate_congr (h : g.defs = g'.defs) {op op' : RouterOp}
    (hop : op.router = op'.router) : (g.applyCreate op).defs = (g'.applyCreate op').defs := by
  have hup := congrArg (Option.map Prod.fst) (upsert_congr h op.router)
  rw [Option.map_map, Option.map_map] at hup
  rw [defs_applyCreate, defs_applyCreate, h, ← hop]
  exact congrArg (fun o => o.getD g'.defs) hup

theorem mem_defs_insert {r d : Router} (hd : d ∈ (g.insert r).defs) :
    d = r ∨ d ∈ g.defs ∧ d.name ≠ r.name := by
  rw [defs_insert] at hd
  split at hd
  · obtain ⟨d', hd', rfl⟩ := mem_map.mp hd
    split
    · exact Or.inl rfl
    · exact Or.inr ⟨hd', ‹_›⟩
  · rename_i hnew
    rcases mem_append.mp hd with hd | hd
    · rw [get_eq_find_defs, find?_isSome, not_exists] at hnew
      exact Or.inr ⟨hd, fun hname => hnew d ⟨hd, decide_eq_true hname⟩⟩
    · exact Or.inl (mem_singleton.mp hd)

theorem mem_defs_upsert {r : Router} {created : Bool} (h : g.upsert r = some (g', created))
    {d : Router} (hd : d ∈ g'.defs) :
    d = r ∨ d ∈ g.defs := by
  unfold upsert at h
  split at h
  · cases h
  · cases h
    exact (mem_defs_insert hd).imp_right And.left

/-! ## Names -/

def Named (g : RouterGraph) : Prop := (g.defs.map Router.name).Nodup

theorem Named.filter (h : g.Named) {p : Router → Bool} (hg' : g'.defs = g.defs.filter p) :
    g'.Named := by
  unfold Named
  rw [hg']
  exact h.sublist (filter_sublist.map _)

theorem Named.insert (h : g.Named) (r : Router) : (g.insert r).Named := by
  unfold Named
  rw [defs_insert]
  split
  · -- the replaced definition has the name of the old one
    rw [map_map]
    have hname : (Router.name ∘ fun d : Router => if d.name = r.name then r else d) =
        Router.name := by
      funext d
      simp only [Function.comp_apply]
      split
      · rename_i hd
        exact hd.symm
      · rfl
    rw [hname]
    exact h
  · rename_i hnone
    rw [map_append, nodup_append]
    refine ⟨h, nodup_singleton _, ?_⟩
    intro a ha b hb hab
    rw [map_singleton, mem_singleton] at hb
    obtain ⟨d, hd, rfl⟩ := mem_map.mp ha
    refine hnone ?_
    rw [get_eq_find_defs]
    exact find?_isSome.mpr ⟨d, hd, by simpa using hab.trans hb⟩

theorem Named.congr (h : g.Named) (heq : g'.defs = g.defs) : g'.Named := by
  unfold Named
  rw [heq]
  exact h

theorem Named.applyCreate (h : g.Named) (op : RouterOp) :
    (g.applyCreate op).Named := by
  have hdefs := defs_applyCreate g op
  unfold upsert at hdefs
  split at hdefs
  · exact h.congr hdefs
  · exact (h.insert op.router).congr hdefs

/-! ## The router part of `replay_frame` -/

def replay (g : RouterGraph) : WalRecord Blob → RouterGraph
  | .topicConfig _ op tombstone _ => if tombstone then g.removeTouchingTopic op.name else g
  | .routerCreate op _ => g.applyCreate op
  | .routerDelete name _ => g.remove name
  | _ => g

theorem defs_replay_congr (h : g.defs = g'.defs) (f : WalRecord Blob) :
    (g.replay f).defs = (g'.replay f).defs := by
  cases f with
  | topicConfig topicId op tombstone ts =>
    cases tombstone with
    | false => exact h
    | true =>
      change (g.removeTouchingTopic op.name).defs = (g'.removeTouchingTopic op.name).defs
      rw [defs_removeTouchingTopic, defs_removeTouchingTopic, h]
  | routerCreate op ts => exact defs_applyCreate_congr h rfl
  | routerDelete name ts =>
    change (g.remove name).defs = (g'.remove name).defs
    rw [defs_remove, defs_remove, h]
  | _ => exact h

theorem Named.replay (h : g.Named) (f : WalRecord Blob) :
    (g.replay f).Named := by
  cases f with
  | topicConfig topicId op tombstone ts =>
    cases tombstone with
    | false => exact h
    | true => exact h.filter (defs_removeTouchingTopic g op.name)
  | routerCreate op ts => exact h.applyCreate op
  | routerDelete name ts => exact h.filter (defs_remove g name)
  | _ => exact h

theorem defs_foldl_remove (g : RouterGraph) (names : List String) :
    (names.foldl remove g).defs = g.defs.filter fun r => r.name ∉ names := by
  induction names generalizing g with
  | nil => simp
  | cons name names ih =>
    rw [foldl_cons, ih, defs_remove, filter_filter]
    refine filter_congr fun r _ => ?_
    by_cases h : r.name = name <;> simp [h]

/-- **The cascade of `delete_topic`.**  Removing the routers that touch a topic by name removes
what `remove_touching_topic` removes. -/
theorem defs_cascade (h : g.Named) (topic : String) :
    ((g.routersTouchingTopic topic).foldl remove g).defs = (g.removeTouchingTopic topic).defs := by
  rw [defs_foldl_remove, defs_removeTouchingTopic]
  refine filter_congr fun r hr => ?_
  have hmem : r.name ∈ g.routersTouchingTopic topic ↔ touches r topic = true := by
    unfold routersTouchingTopic
    rw [mem_insertionSort, mem_map]
    constructor
    · rintro ⟨e, he, hname⟩
      obtain ⟨hmem, htouch⟩ := mem_filter.mp he
      -- the names tell the definitions apart
      have heq : e.router = r :=
        inj_on_of_nodup_map h (mem_map.mpr ⟨e, hmem, rfl⟩) hr hname
      rw [← heq]
      exact htouch
    · intro htouch
      obtain ⟨e, he, rfl⟩ := mem_map.mp hr
      exact ⟨e, mem_filter.mpr ⟨he, htouch⟩, rfl⟩
  by_cases ht : touches r topic = true
  · simp [hmem.mpr ht, ht]
  · simp [mt hmem.mp ht, ht]

end RouterGraph

theorem Engine.routers_modifyById (E : Engine) (id : Nat) (f : TopicState → TopicState) :
    (E.modifyById id f).routers = E.routers := rfl

theorem Engine.routers_applyPutTopic (E : Engine) (now : Int) (name : String)
    (config : TopicConfig) (id : Nat) :
    (E.applyPutTopic now name config id).routers = E.routers := by
  unfold applyPutTopic
  split <;> rfl

theorem Engine.routers_replayFrame (S : Serde Blob) (now : Int) (E : Engine)
    (f : WalRecord Blob) : (Engine.replayFrame S now E f).routers = E.routers.replay f := by
  cases f with
  | topicConfig topicId op tombstone ts =>
    cases tombstone with
    | false => exact routers_applyPutTopic E now op.name _ topicId
    | true => rfl
  | append topicId seq ts node tag data =>
    simp only [replayFrame, routers_modifyById]
    split
    · rfl
    · exact routers_applyPutTopic E now _ _ topicId
  | _ => rfl

theorem Engine.routers_foldl_replayFrame (S : Serde Blob) (now : Int) (E : Engine)
    (frames : List (WalRecord Blob)) :
    (frames.foldl (Engine.replayFrame S now) E).routers =
      frames.foldl RouterGraph.replay E.routers := by
  induction frames generalizing E with
  | nil => rfl
  | cons f frames ih => rw [foldl_cons, foldl_cons, ih, routers_replayFrame]

end Topics
