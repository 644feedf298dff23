import Topics.RegistryRouters

/-!
# Recovery of the registry

For every run of calls and passes, recovery finds each name as the engine last acknowledged it,
provided that the frames of a name do not move to a lower shard, that no router is put on a
name with a tombstone outside the router shard, and that no write lands behind records a
router derived.
-/

namespace Topics

open Lib Option TopicState Engine

variable {Blob : Type} {S : Serde Blob} {hash : Nat → Nat} {n : Nat} {noBytes : Blob}

namespace Registry

variable (hash n) in
/-- The condition on a step: a topic is not created in a lower shard than the earlier topics of
its name, a router is put only on topics without a tombstone outside the first shard, and a
write goes only to a topic no router has written into. -/
def Orderly (s : Registry Blob) : RegistryAction → Prop
  | .putTopic name _ _ => s.Settled hash n name s.engine.nextTopicId
  | .putRouter r _ =>
    s.Settled hash n r.source s.engine.nextTopicId ∧
      (r.dest ≠ r.source → s.Settled hash n r.dest
        (s.engine.nextTopicId + if (s.engine.getTopic r.source).isNone then 1 else 0)) ∧
      s.Unburied r.source ∧ s.Unburied r.dest
  | .write name _ _ => ∀ b ∈ s.engine.getTopic name, b.topicId ∉ s.derived
  | _ => True

instance (s : Registry Blob) (a : RegistryAction) : Decidable (s.Orderly hash n a) := by
  cases a <;> unfold Orderly <;> infer_instance

/-! ## Every run -/

theorem inv_step (hS : S.RoundTrips) {s s' : Registry Blob} {a : RegistryAction}
    (h : TopicInv S hash n s ∧ RouterInv s) (horderly : s.Orderly hash n a)
    (hstep : s.step S hash n noBytes a = some s') : TopicInv S hash n s' ∧ RouterInv s' := by
  obtain ⟨ht, hr⟩ := h
  cases a with
  | putTopic name config now =>
    obtain ⟨-, ⟨⟩⟩ := ite_none_left_eq_some.mp hstep
    exact ⟨ht.putTopic hS horderly config now, hr.register name config now⟩
  | deleteTopic name now => exact ⟨ht.deleteTopic hstep, hr.deleteTopic hstep⟩
  | putRouter r now =>
    obtain ⟨hsource, hdest, hburied⟩ := horderly
    exact ⟨ht.putRouter hS hsource hdest hstep, hr.putRouter hburied.1 hburied.2 hstep⟩
  | deleteRouter name now => exact ⟨ht.deleteRouter hstep, hr.deleteRouter hstep⟩
  | write name records now =>
    exact ⟨ht.write hS (fun b hb => horderly b hb) hstep, hr.write hstep⟩
  | pass p =>
    cases hstep
    exact ⟨ht.pass p, hr.pass p⟩

/-! ## The recovered engine -/

/-- What the recovered engine `E` has in common with the engine of `s`. -/
structure Rebuilt (s : Registry Blob) (E : Engine) : Prop where
  defs : E.routers.defs = s.engine.routers.defs
  absent : ∀ x, s.engine.getTopic x = none → E.getTopic x = none
  present : ∀ x b, s.engine.getTopic x = some b → ∃ c, E.getTopic x = some c ∧
    c.topicId = b.topicId ∧ c.config = b.config ∧ Restored s (s.engine.feeds x = true) c

namespace Rebuilt

variable {s : Registry Blob} {E : Engine}

theorem feeds (h : Rebuilt s E) (x : String) : E.feeds x = s.engine.feeds x := by
  have hdefs : ∀ E : Engine, E.feeds x = E.routers.defs.any fun r => r.dest = x := by
    intro E
    unfold Engine.feeds RouterGraph.defs
    rw [List.any_map]
    rfl
  rw [hdefs, hdefs, h.defs]

theorem modifyByName (h : Rebuilt s E) (name : String) {f : TopicState → TopicState}
    (hname : ∀ b, (f b).name = b.name) (hid : ∀ b, (f b).topicId = b.topicId)
    (hconfig : ∀ b, (f b).config = b.config)
    (hrestored : ∀ c, Restored s (s.engine.feeds name = true) c →
      Restored s (s.engine.feeds name = true) (f c)) : Rebuilt s (E.modifyByName name f) where
  defs := h.defs
  absent x hx := by
    rw [getTopic_modifyByName E name hname, h.absent x hx]
    split <;> rfl
  present x b hb := by
    obtain ⟨c, hc, hcid, hcconfig, hcr⟩ := h.present x b hb
    rw [getTopic_modifyByName E name hname, hc]
    by_cases hx : name = x
    · subst hx
      rw [if_pos rfl]
      exact ⟨f c, rfl, (hid c).trans hcid, (hconfig c).trans hcconfig, hrestored c hcr⟩
    · rw [if_neg hx]
      exact ⟨c, rfl, hcid, hcconfig, hcr⟩

theorem pass (h : Rebuilt s E) (p : Pass) : Rebuilt s (E.pass p) := by
  cases p with
  | retain name now =>
    have hst := fun b : TopicState => steady_enforceRetention b now
    exact h.modifyByName name (fun b => (hst b).name) (fun b => (hst b).topicId)
      (fun b => (hst b).config) fun c hc => hc.enforceRetention now
  | trim dest =>
    simp only [Engine.pass]
    split
    · rename_i hfeeds
      rw [h.feeds] at hfeeds
      exact h.modifyByName dest (fun _ => rfl) (fun _ => rfl) (fun _ => rfl)
        fun c hc => hc.noteSourceTrim hfeeds
    · exact h
  | derive dest records =>
    simp only [Engine.pass]
    split
    · rename_i hfeeds
      rw [h.feeds] at hfeeds
      exact h.modifyByName dest (fun b => append_name b _)
        (fun b => append_topicId b _) (fun b => append_config b _)
        fun c hc => hc.append hfeeds records
    · exact h
  | note router cursor count =>
    exact { h with defs := (RouterGraph.defs_noteForwarded _ _ _ _).trans h.defs }

theorem passes (h : Rebuilt s E) (ps : List Pass) : Rebuilt s (ps.foldl Engine.pass E) :=
  List.foldlRecOn ps _ h fun _ hE p _ => hE.pass p

end Rebuilt

theorem rebuilt_recover {s : Registry Blob} (h : TopicInv S hash n s ∧ RouterInv s) (hn : 0 < n)
    {order : List Nat} (horder : ∀ id ∈ order, isSplit (groupsOf n (history s.log)) id = true)
    (now : Int) (passes : List Pass) : Rebuilt s (recover S n s.log order now passes) := by
  obtain ⟨ht, hr⟩ := h
  have hplaced : ∀ e ∈ s.log, e.shard = shardForTopic hash n e.frame.topicId :=
    fun e he => ((ht.ok now).of_mem he).2
  have hget := recover_topics (ht.ok now) hn
  have hreplay : Rebuilt s (Engine.recover S now
      ((replayOrder (groupsOf n (history s.log)) order).map Placed.frame)) := by
    rw [replayOrder_frames hplaced n horder]
    refine ⟨?_, fun x hx => ?_, fun x b hb => ?_⟩
    · refine (congrArg RouterGraph.defs (Engine.routers_foldl_replayFrame S now _ _)).trans ?_
      refine hr.replay hn fun e he hrouter => ?_
      rw [hplaced e he]
      refine if_pos (Or.inr ?_)
      cases hf : e.frame <;> rw [hf] at hrouter <;> first | rfl | cases hrouter
    · rw [Engine.recover, Engine.getTopic_applyHeadWatermarks, hget, ht.absent now x hx]
      rfl
    · obtain ⟨c, hc, hagree⟩ := ht.present now x b hb
      have hpad : c.applyHeadWatermark = c := by
        rw [applyHeadWatermark_eq, if_neg hagree.reserved.not_gt]
      refine ⟨c, ?_, hagree.topicId, hagree.config, hagree.restored.of_fed⟩
      rw [Engine.recover, Engine.getTopic_applyHeadWatermarks, hget, hc, map_some, hpad]
  exact hreplay.passes passes

def placement (id : Nat) : Nat := [0, 0, 1, 1, 0].getD id 0

def fsyncConfig : TopicConfig := { durability := some .fsync }

def note (text : String) : RecordIn := ⟨none, none, .string text, none⟩

def copyRouter (source dest : String) : Router := { name := "copy", source := source, dest := dest }

def runAndRecover (actions : List RegistryAction) :
    Option (Registry (Value ⊕ TopicConfig) × Engine) :=
  (exec (step Serde.identity placement 2 (Sum.inl .null)) init actions).map fun s =>
    (s, recover Serde.identity 2 s.log [] 0 [])

/-- A topic that is deleted and created again in the higher shard, with a router on it. -/
def orderlyRun : List RegistryAction :=
  [.putTopic "a" fsyncConfig 1, .write "a" [note "old"] 2, .deleteTopic "a" 3,
    .putTopic "a" fsyncConfig 4, .putRouter (copyRouter "a" "b") 5, .write "a" [note "new"] 6,
    .pass (.derive "b" [(note "new").stored Serde.identity 6])]

end Registry

end Topics
