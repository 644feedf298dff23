import Topics.RegistryTopics

/-!
# The routers of the registry and their log

Router frames lie in the first shard, which is read first.  The tombstones of topics lie in the
shards of their ids, and every one of them removes the routers of its name again.
-/

namespace Topics

open Lib RouterGraph List Engine

variable {Blob : Type} {S : Serde Blob} {hash : Nat → Nat} {n : Nat} {noBytes : Blob}

def WalRecord.inert : WalRecord Blob → Bool
  | .topicConfig _ _ tombstone _ => !tombstone
  | .routerCreate .. => false
  | .routerDelete .. => false
  | _ => true

theorem RouterGraph.replay_of_inert {f : WalRecord Blob} (h : f.inert = true) (g : RouterGraph) :
    g.replay f = g := by
  cases f with
  | topicConfig id op tombstone ts =>
    cases tombstone with
    | false => rfl
    | true => cases h
  | routerCreate | routerDelete => cases h
  | _ => rfl

theorem LogEntry.buries_of_inert {e : LogEntry Blob} (h : e.frame.inert = true) (name : String) :
    e.buries name = false := by
  unfold LogEntry.buries
  cases hf : e.frame with
  | topicConfig id op tombstone ts =>
    rw [hf] at h
    cases tombstone with
    | false => rfl
    | true => cases h
  | _ => rfl

theorem Engine.defs_pass (E : Engine) (p : Pass) : (E.pass p).routers.defs = E.routers.defs := by
  cases p with
  | retain => rfl
  | trim | derive =>
    simp only [pass]
    split <;> rfl
  | note router cursor count => exact defs_noteForwarded _ _ _ _

namespace Registry

/-- The graph the frames of the first shard replay to. -/
def routersOf (log : List (LogEntry Blob)) : RouterGraph :=
  ((log.filter fun e => e.shard = 0).map LogEntry.frame).foldl RouterGraph.replay RouterGraph.empty

theorem routersOf_append (log es : List (LogEntry Blob)) :
    routersOf (log ++ es) =
      ((es.filter fun e => e.shard = 0).map LogEntry.frame).foldl RouterGraph.replay
        (routersOf log) := by
  unfold routersOf
  rw [filter_append, map_append, foldl_append]

theorem named_routersOf (log : List (LogEntry Blob)) : (routersOf log).Named :=
  foldlRecOn _ _ nodup_nil fun _ hg f _ => hg.replay f

theorem inert_swept {old : Option TopicState} {g : TopicState → TopicState} {now : Int}
    {f : WalRecord Blob} (h : f ∈ (old.map fun b => retainFrames (g b) now).getD []) :
    f.inert = true := by
  cases old with
  | none => cases h
  | some b =>
    obtain ⟨_, _, _, _, rfl⟩ := mem_retainFrames h
    rfl

theorem log_register (s : Registry Blob) (name : String) (config : TopicConfig) (now : Int) :
    ∃ es, (s.register S hash n name config now).log = s.log ++ es ∧
      ∀ e ∈ es, e.frame.inert = true := by
  refine ⟨_, rfl, fun e he => ?_⟩
  obtain ⟨f, hf, rfl⟩ := mem_map.mp he
  rcases mem_cons.mp hf with rfl | hf
  · rfl
  · exact inert_swept hf

theorem log_ensureTopic (s : Registry Blob) (name : String) (now : Int) :
    ∃ es, (s.ensureTopic S hash n name now).log = s.log ++ es ∧
      ∀ e ∈ es, e.frame.inert = true := by
  unfold ensureTopic
  split
  · exact ⟨[], (append_nil _).symm, nofun⟩
  · exact log_register s name {} now

/-- A router may be put on the topic: its tombstones all lie in the first shard. -/
def Unburied (s : Registry Blob) (name : String) : Prop :=
  ∀ e ∈ s.log, e.buries name = true → e.shard = 0

instance (s : Registry Blob) (name : String) : Decidable (s.Unburied name) :=
  inferInstanceAs (Decidable (∀ e ∈ s.log, _))

structure RouterInv (s : Registry Blob) : Prop where
  graph : (routersOf s.log).defs = s.engine.routers.defs
  clear : ∀ e ∈ s.log, e.shard ≠ 0 → ∀ name, e.buries name = true →
    ∀ r ∈ s.engine.routers.defs, RouterGraph.touches r name = false

namespace RouterInv

variable {s : Registry Blob}

theorem init : RouterInv (Registry.init : Registry Blob) where
  graph := rfl
  clear e he := by cases he

theorem named (h : RouterInv s) :
    s.engine.routers.Named := (named_routersOf s.log).congr h.graph.symm

variable {s' : Registry Blob} {now : Int} {name : String}

section

variable (h : RouterInv s)

include h

theorem quiet (es : List (LogEntry Blob)) (hlog : s'.log = s.log ++ es)
    (hes : ∀ e ∈ es, e.frame.inert = true) (hdefs : s'.engine.routers.defs = s.engine.routers.defs) :
    RouterInv s' where
  graph := by
    rw [hlog, routersOf_append, hdefs]
    refine foldlRecOn _ _ (motive := fun g : RouterGraph => g.defs = s.engine.routers.defs)
      h.graph ?_
    intro g hg f hf
    obtain ⟨e, he, rfl⟩ := mem_map.mp hf
    rw [replay_of_inert (hes e (mem_filter.mp he).1)]
    exact hg
  clear e he hshard name hburies := by
    rw [hdefs]
    rw [hlog] at he
    rcases mem_append.mp he with he | he
    · exact h.clear e he hshard name hburies
    · rw [LogEntry.buries_of_inert (hes e he)] at hburies
      cases hburies

theorem register (name : String) (config : TopicConfig) (now : Int) :
    RouterInv (s.register S hash n name config now) := by
  obtain ⟨es, hlog, hes⟩ := log_register s name config now
  exact h.quiet es hlog hes
    (congrArg RouterGraph.defs (routers_applyPutTopic _ now name config _))

theorem routerFrame {f : WalRecord Blob} (hf : f.isRouter = true)
    (hlog : s'.log = s.log ++ [shardEntry hash n none f])
    (hdefs : s'.engine.routers.defs = (s.engine.routers.replay f).defs)
    (hclear : ∀ e ∈ s.log, e.shard ≠ 0 → ∀ name, e.buries name = true →
      ∀ r ∈ (s.engine.routers.replay f).defs, RouterGraph.touches r name = false) :
    RouterInv s' := by
  have hzero : (shardEntry hash n none f).shard = 0 ∧
      ∀ name, (shardEntry hash n none f).buries name = false := by
    cases f with
    | routerCreate op ts | routerDelete name ts => exact ⟨if_pos (Or.inr rfl), fun _ => rfl⟩
    | _ => cases hf
  refine ⟨?_, fun e he hshard name hburies => ?_⟩
  · rw [hlog, routersOf_append, hdefs, filter_cons_of_pos (by simpa using hzero.1)]
    exact defs_replay_congr h.graph f
  · rw [hdefs]
    rw [hlog] at he
    rcases mem_append.mp he with he | he
    · exact hclear e he hshard name hburies
    · rw [mem_singleton.mp he] at hshard
      exact absurd hzero.1 hshard

theorem putRouter {r : Router} (hsource : s.Unburied r.source) (hdest : s.Unburied r.dest)
    (hstep : s.putRouter S hash n r now = some s') : RouterInv s' := by
  obtain ⟨g, g₁, g₂, op, created, s₁, hup, hg₁, hg₂, hop, hs₁, rfl⟩ := putRouter_cases hstep
  -- the topics are created first; seen from the routers nothing happens there
  obtain ⟨es, hes, hinert⟩ : ∃ es, s₁.log = s.log ++ es ∧ ∀ e ∈ es, e.frame.inert = true := by
    obtain ⟨es₁, h₁, hin₁⟩ := log_ensureTopic (S := S) (n := n)
      ({ s with engine := { s.engine with routers := g₁ } } : Registry Blob) r.source now
    obtain ⟨es₂, h₂, hin₂⟩ := log_ensureTopic (S := S) (n := n)
      (({ s with engine := { s.engine with routers := g₁ } } : Registry Blob).ensureTopic S hash n
        r.source now) r.dest now
    refine ⟨es₁ ++ es₂, ?_, fun e he => ?_⟩
    · rw [hs₁, h₂, h₁, append_assoc]
    · rcases mem_append.mp he with he | he
      · exact hin₁ e he
      · exact hin₂ e he
  have hbefore : RouterInv { s₁ with engine := { s₁.engine with routers := s.engine.routers } } :=
    h.quiet es hes hinert rfl
  have hdefs : (s.engine.routers.replay (.routerCreate op now.toNat : WalRecord Blob)).defs =
      g.defs := by
    refine (defs_applyCreate s.engine.routers op).trans ?_
    rw [hop, hup]
    rfl
  refine hbefore.routerFrame (f := .routerCreate op now.toNat) rfl rfl (hg₂.trans hdefs.symm) ?_
  intro e he hshard name hburies r' hr'
  have hold : e ∈ s.log := by
    rcases mem_append.mp (hes ▸ he : e ∈ s.log ++ es) with he | he
    · exact he
    · rw [LogEntry.buries_of_inert (hinert e he)] at hburies
      cases hburies
  have hmem : r' = r ∨ r' ∈ s.engine.routers.defs := by
    refine mem_defs_upsert hup ?_
    rw [← hdefs]
    exact hr'
  rcases hmem with rfl | hmem
  · by_contra htouch
    have htouch' : r'.source = name ∨ r'.dest = name := by
      rw [Bool.not_eq_false, RouterGraph.touches, Bool.or_eq_true, beq_iff_eq, beq_iff_eq] at htouch
      exact htouch
    rcases htouch' with rfl | rfl
    · exact hshard (hsource e hold hburies)
    · exact hshard (hdest e hold hburies)
  · exact h.clear e hold hshard name hburies r' hmem

theorem deleteRouter (hstep : s.deleteRouter hash n name now = some s') : RouterInv s' := by
  unfold Registry.deleteRouter at hstep
  split at hstep
  · cases hstep
  · cases hstep
    refine h.routerFrame (f := .routerDelete name now.toNat) rfl rfl rfl ?_
    intro e he hshard x hburies r hr
    have hr' : r ∈ (s.engine.routers.remove name).defs := hr
    rw [defs_remove] at hr'
    exact h.clear e he hshard x hburies r (mem_filter.mp hr').1

theorem deleteTopic (hstep : s.deleteTopic hash n noBytes name now = some s') : RouterInv s' := by
  unfold Registry.deleteTopic at hstep
  split at hstep
  · cases hstep
  · rename_i b hold
    cases hstep
    have hlive : (s.engine.removeTopic name).routers.defs =
        s.engine.routers.defs.filter fun r => !RouterGraph.touches r name :=
      defs_removeTouchingTopic s.engine.routers name
    have hcascade : (s.engine.routers.defs.filter fun r =>
        r.name ∉ s.engine.routers.routersTouchingTopic name) =
        s.engine.routers.defs.filter fun r => !RouterGraph.touches r name := by
      rw [← defs_foldl_remove, defs_cascade h.named,
        defs_removeTouchingTopic]
    have hfold : ∀ g : RouterGraph,
        ((((s.engine.routers.routersTouchingTopic name).map fun r =>
          shardEntry hash n none (.routerDelete r now.toNat : WalRecord Blob)).filter
            fun e => e.shard = 0).map LogEntry.frame).foldl RouterGraph.replay g =
        (s.engine.routers.routersTouchingTopic name).foldl RouterGraph.remove g := by
      intro g
      have hzero : ∀ r : String, (shardEntry hash n none
          (.routerDelete r now.toNat : WalRecord Blob)).shard = 0 :=
        fun _ => if_pos (Or.inr rfl)
      rw [filter_eq_self.mpr (fun e he => by
        obtain ⟨r, _, rfl⟩ := mem_map.mp he
        exact decide_eq_true (hzero r)), map_map, foldl_map]
      rfl
    refine ⟨?_, fun e he hshard x hburies r hr => ?_⟩
    · rw [routersOf_append, filter_cons]
      split
      · rw [map_cons, foldl_cons, hfold, defs_foldl_remove]
        have htomb : ((routersOf s.log).replay (shardEntry hash n (some name)
            (.topicConfig b.topicId ⟨name, noBytes⟩ true now.toNat)).frame).defs =
            s.engine.routers.defs.filter fun r => !RouterGraph.touches r name := by
          refine (defs_removeTouchingTopic _ name).trans ?_
          rw [h.graph]
        rw [htomb, hlive, ← hcascade, filter_filter]
        exact filter_congr fun r _ => Bool.and_self _
      · rw [hfold, defs_foldl_remove, h.graph, hcascade, hlive]
    · have hr' : r ∈ (s.engine.removeTopic name).routers.defs := hr
      rw [hlive] at hr'
      obtain ⟨hmem, hnot⟩ := mem_filter.mp hr'
      rcases mem_append.mp he with he | he
      · exact h.clear e he hshard x hburies r hmem
      · rcases mem_cons.mp he with rfl | he
        · have hx : name = x := by
            simpa [LogEntry.buries, shardEntry] using hburies
          rw [← hx]
          simpa using hnot
        · obtain ⟨d, _, rfl⟩ := mem_map.mp he
          cases hburies

theorem pass (p : Pass) : RouterInv { s with
      engine := s.engine.pass p
      log := s.log ++ s.passEntries hash n p
      derived := s.derivedBy p ++ s.derived } := by
  refine h.quiet _ rfl (fun e he => ?_) ?_
  · cases p with
    | retain name now =>
      obtain ⟨f, hf, rfl⟩ := mem_map.mp he
      exact inert_swept (g := id) hf
    | trim | derive | note => cases he
  · exact defs_pass s.engine p

theorem write {records : List RecordIn} (hstep : s.write S hash n name records now = some s') :
    RouterInv s' := by
  unfold Registry.write at hstep
  split at hstep
  · cases hstep
  · rename_i b hold
    split at hstep
    · cases hstep
      refine h.quiet _ rfl (fun e he => ?_) rfl
      obtain ⟨f, hf, rfl⟩ := mem_map.mp he
      rw [← map_uncurry_zip_eq_zipWith] at hf
      obtain ⟨p, _, rfl⟩ := mem_map.mp hf
      rfl
    · cases hstep

/-- **Reading the other shards behind the first one** removes no live router. -/
theorem replay (hn : 0 < n) (hplaced : ∀ e ∈ s.log, e.frame.isRouter = true → e.shard = 0) :
    (((buckets LogEntry.shard n s.log).map LogEntry.frame).foldl RouterGraph.replay
      RouterGraph.empty).defs = s.engine.routers.defs := by
  obtain ⟨m, rfl⟩ := Nat.exists_eq_add_one_of_ne_zero (Nat.pos_iff_ne_zero.mp hn)
  have hfirst : buckets LogEntry.shard (m + 1) s.log =
      (s.log.filter fun e => e.shard = 0) ++
        ((range m).map Nat.succ).flatMap fun g => s.log.filter fun e => e.shard = g := by
    unfold buckets
    rw [range_succ_eq_map, flatMap_cons]
  rw [hfirst, map_append, foldl_append]
  refine foldlRecOn _ _ (motive := fun g : RouterGraph => g.defs = s.engine.routers.defs)
    h.graph ?_
  intro g hg f hf
  obtain ⟨e, he, rfl⟩ := mem_map.mp hf
  obtain ⟨he, hshard⟩ : e ∈ s.log ∧ e.shard ≠ 0 := by
    obtain ⟨g, hg, he⟩ := mem_flatMap.mp he
    obtain ⟨k, _, rfl⟩ := mem_map.mp hg
    obtain ⟨hmem, hshard⟩ := mem_filter.mp he
    exact ⟨hmem, of_decide_eq_true hshard ▸ Nat.succ_ne_zero k⟩
  cases hf : e.frame with
  | topicConfig id op tombstone ts =>
    cases tombstone with
    | false => exact hg
    | true =>
      -- a tombstone of another shard names no topic of a live router
      have hburies : e.buries op.name = true := by simp [LogEntry.buries, hf]
      refine (defs_removeTouchingTopic g op.name).trans ?_
      rw [hg, filter_eq_self]
      intro r hr
      rw [h.clear e he hshard op.name hburies r hr]
      rfl
  | routerCreate op ts | routerDelete name ts =>
    exact absurd (hplaced e he (by rw [hf]; rfl)) hshard
  | _ => exact hg

end

end RouterInv

end Registry

end Topics
