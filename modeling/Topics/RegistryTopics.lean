import Topics.RegistryReplay

/-!
# The topics of the registry and their log

The invariant that links the engine's topics with the log, at every clock a recovery may have,
and its preservation by every call and pass.
-/

namespace Topics

open Lib TopicState Engine List Registry

variable {Blob : Type} {S : Serde Blob} {hash : Nat → Nat} {n : Nat} {noBytes : Blob}

namespace Registry

variable (hash n) in
/-- A topic with this id may be created under the name: the frames of earlier topics of the
name do not lie in a higher shard. -/
def Settled (s : Registry Blob) (name : String) (id : Nat) : Prop :=
  (s.engine.getTopic name).isNone = true →
    ∀ e ∈ s.log, e.topic = some name → e.shard ≤ shardForTopic hash n id

instance (s : Registry Blob) (name : String) (id : Nat) : Decidable (s.Settled hash n name id) :=
  inferInstanceAs (Decidable (_ → _))

/-! ## The invariant -/

variable (S hash n) in
/-- The engine's topics against the log, whatever the clock of the recovery. -/
structure TopicInv (s : Registry Blob) : Prop where
  positive : 0 < s.engine.nextTopicId
  logged : ∀ e ∈ s.log, e.frame.topicId < s.engine.nextTopicId
  ackedIds : ∀ a ∈ s.acked, a.1 < s.engine.nextTopicId
  ok : ∀ now, LogOk S hash n now s.log
  opens : ∀ x b, s.engine.getTopic x = some b → Opens hash n s.log x b.topicId
  absent : ∀ now x, s.engine.getTopic x = none → nameState S now s.log x = none
  present : ∀ now x b, s.engine.getTopic x = some b →
    ∃ c, nameState S now s.log x = some c ∧ Agrees s b c

namespace TopicInv

variable {s : Registry Blob}

theorem init : TopicInv S hash n (Registry.init : Registry Blob) where
  positive := Nat.one_pos
  logged e he := by cases he
  ackedIds a ha := by cases ha
  ok _ := LogOk.nil
  opens x b hb := by cases hb
  absent _ _ _ := rfl
  present _ x b hb := by cases hb

variable {x name dest source : String} {b : TopicState} {s' : Registry Blob} {now : Int}

theorem exists_entry (h : TopicInv S hash n s) (hb : s.engine.getTopic x = some b) :
    ∃ e ∈ s.log, e.topic = some x ∧ e.frame.topicId = b.topicId := by
  obtain ⟨c, hc, hagree⟩ := h.present 0 x b hb
  obtain ⟨e, he, htop, hid⟩ := (nameState_filter (h.ok 0).addressed x).1 c hc
  exact ⟨e, he, htop, hid.trans hagree.topicId⟩

theorem id_lt (h : TopicInv S hash n s) (hb : s.engine.getTopic x = some b) :
    b.topicId < s.engine.nextTopicId := by
  obtain ⟨e, he, _, hid⟩ := h.exists_entry hb
  rw [← hid]
  exact h.logged e he

/-- What a step that only concerns the topic `id` under the name `x` has to show. -/
structure Change (S : Serde Blob) (hash : Nat → Nat) (n : Nat) (s s' : Registry Blob)
    (x : String) (id : Nat) : Prop where
  next : s.engine.nextTopicId ≤ s'.engine.nextTopicId
  id_lt : id < s'.engine.nextTopicId
  others : ∀ y, x ≠ y → s'.engine.getTopic y = s.engine.getTopic y
  acked : ∀ a ∈ s'.acked, a ∈ s.acked ∨ a.1 = id
  kept : s.acked ⊆ s'.acked
  limited : s.limited ⊆ s'.limited
  derived : s.derived ⊆ s'.derived
  replayed : ∀ now, ∃ st, Grown S hash n now s.log s'.log x id st ∧
    match s'.engine.getTopic x with
    | none => st = none
    | some b => b.topicId = id ∧ ∃ c, st = some c ∧ Agrees s' b c

/-- **A change of one topic** keeps the invariant. -/
theorem change (h : TopicInv S hash n s) (x : String) (id : Nat) (hc : Change S hash n s s' x id) :
    TopicInv S hash n s' := by
  -- another live topic has another id
  have hother : ∀ y b, x ≠ y → s.engine.getTopic y = some b → b.topicId ≠ id := by
    intro y b hy hb heq
    obtain ⟨st, hgrown, _⟩ := hc.replayed 0
    obtain ⟨c, hstate, hagree⟩ := h.present 0 y b hb
    rw [← hgrown.others y hy] at hstate
    obtain ⟨e, he, htop, hid⟩ := (nameState_filter hgrown.ok.addressed y).1 c hstate
    have hown := hgrown.opens.owns e he (hid.trans (hagree.topicId.trans heq))
    rw [htop] at hown
    exact hy (Option.some.inj hown).symm
  refine ⟨h.positive.trans_le hc.next, ?_, ?_, ?_, ?_, ?_, ?_⟩
  · intro e he
    obtain ⟨st, hgrown, _⟩ := hc.replayed 0
    rcases hgrown.entries e he with he | ⟨_, hid⟩
    · exact lt_of_lt_of_le (h.logged e he) hc.next
    · rw [hid]
      exact hc.id_lt
  · intro a ha
    rcases hc.acked a ha with ha | ha
    · exact lt_of_lt_of_le (h.ackedIds a ha) hc.next
    · rw [ha]
      exact hc.id_lt
  · intro now
    obtain ⟨st, hgrown, _⟩ := hc.replayed now
    exact hgrown.ok
  · intro y b hb
    obtain ⟨st, hgrown, hx⟩ := hc.replayed 0
    by_cases hy : x = y
    · subst hy
      rw [hb] at hx
      rw [hx.1]
      exact hgrown.opens
    · rw [hc.others y hy] at hb
      have hold := h.opens y b hb
      refine ⟨hold.positive, fun e he hid => ?_, fun e he htop => ?_⟩
      · rcases hgrown.entries e he with he | ⟨_, heid⟩
        · exact hold.owns e he hid
        · exact absurd (hid.symm.trans heid) (hother y b hy hb)
      · rcases hgrown.entries e he with he | ⟨hex, _⟩
        · exact hold.below e he htop
        · rw [hex] at htop
          exact absurd (Option.some.inj htop) hy
  · intro now y hb
    obtain ⟨st, hgrown, hx⟩ := hc.replayed now
    by_cases hy : x = y
    · subst hy
      rw [hb] at hx
      exact hgrown.state.trans hx
    · rw [hc.others y hy] at hb
      rw [hgrown.others y hy]
      exact h.absent now y hb
  · intro now y b hb
    obtain ⟨st, hgrown, hx⟩ := hc.replayed now
    by_cases hy : x = y
    · subst hy
      rw [hb] at hx
      obtain ⟨_, c, hst, hagree⟩ := hx
      exact ⟨c, hgrown.state.trans hst, hagree⟩
    · rw [hc.others y hy] at hb
      obtain ⟨c, hstate, hagree⟩ := h.present now y b hb
      refine ⟨c, (hgrown.others y hy).trans hstate, hagree.mono ?_ hc.limited hc.derived⟩
      intro q r
      refine ⟨fun hq => ?_, fun hq => hc.kept hq⟩
      exact (hc.acked _ hq).resolve_right (hother y b hy hb)

theorem quiet (h : TopicInv S hash n s) (hlog : ∀ now, Quiet S hash n now s.log s'.log)
    (hnext : s'.engine.nextTopicId = s.engine.nextTopicId)
    (hget : ∀ x, s'.engine.getTopic x = s.engine.getTopic x) (hacked : s'.acked = s.acked)
    (hlimited : s'.limited = s.limited) (hderived : s.derived ⊆ s'.derived) :
    TopicInv S hash n s' := by
  refine ⟨by rw [hnext]; exact h.positive, ?_, by rw [hnext, hacked]; exact h.ackedIds,
    fun now => (hlog now).ok, ?_, ?_, ?_⟩
  · intro e he
    rw [hnext]
    rcases (hlog 0).entries e he with he | ⟨_, hid⟩
    · exact h.logged e he
    · rw [hid]
      exact h.positive
  · intro x b hb
    rw [hget] at hb
    have hold := h.opens x b hb
    refine ⟨hold.positive, fun e he hid => ?_, fun e he htop => ?_⟩
    · rcases (hlog 0).entries e he with he | ⟨_, hzero⟩
      · exact hold.owns e he hid
      · exact absurd (hid.symm.trans hzero) hold.positive
    · rcases (hlog 0).entries e he with he | ⟨hnone, _⟩
      · exact hold.below e he htop
      · rw [hnone] at htop
        cases htop
  · intro now x hb
    rw [hget] at hb
    rw [(hlog now).state]
    exact h.absent now x hb
  · intro now x b hb
    rw [hget] at hb
    obtain ⟨c, hc, hagree⟩ := h.present now x b hb
    refine ⟨c, ((hlog now).state x).trans hc, hagree.mono ?_ ?_ ?_⟩
    · rw [hacked]
      exact fun _ _ => Iff.rfl
    · rw [hlimited]
      exact fun _ hx => hx
    · exact hderived

theorem same (h : TopicInv S hash n s) (hlog : s'.log = s.log)
    (hnext : s'.engine.nextTopicId = s.engine.nextTopicId)
    (hget : ∀ x, s'.engine.getTopic x = s.engine.getTopic x) (hacked : s'.acked = s.acked)
    (hlimited : s'.limited = s.limited) (hderived : s.derived ⊆ s'.derived) :
    TopicInv S hash n s' := by
  refine h.quiet (fun now => ?_) hnext hget hacked hlimited hderived
  rw [hlog]
  exact ⟨h.ok now, fun _ he => Or.inl he, fun _ => rfl⟩

/-! ### The calls, one by one -/

theorem retainFrames_addresses {f : WalRecord Blob} (h : f ∈ retainFrames b now) :
    f.addresses b.topicId = true := by
  obtain ⟨_, _, _, _, rfl⟩ := mem_retainFrames h
  exact beq_self_eq_true _

theorem putTopic (hS : S.RoundTrips) (h : TopicInv S hash n s)
    (hsettled : s.Settled hash n name s.engine.nextTopicId) (config : TopicConfig) (now : Int) :
    TopicInv S hash n (s.register S hash n name config now) := by
  -- a live name keeps its id, a new one takes the next
  obtain ⟨id, swept, hid, hswept, hopens, haddr, hnext, hput⟩ : ∃ id swept,
      ((s.engine.getTopic name).map (·.topicId)).getD s.engine.nextTopicId = id ∧
      ((s.engine.getTopic name).map fun b => retainFrames { b with config := config } now).getD [] =
        swept ∧ Opens hash n s.log name id ∧ (∀ f ∈ swept, f.addresses id = true) ∧
      (s.engine.nextTopicId ≤ (s.engine.applyPutTopic now name config id).nextTopicId ∧
        id < (s.engine.applyPutTopic now name config id).nextTopicId) ∧
      ∀ (s' : Registry Blob) now', s'.acked = s.acked → s.limited ⊆ s'.limited →
        s'.derived = s.derived → (id ∉ s'.limited → config.limits = false) →
        (putName now name config id (s.engine.getTopic name)).topicId = id ∧
          Agrees s' (putName now name config id (s.engine.getTopic name))
            (putName now' name config id (nameState S now' s.log name)) ∧
          ∀ c, Agrees s' (putName now name config id (s.engine.getTopic name)) c →
            Agrees s' (putName now name config id (s.engine.getTopic name)) (c.replayAll S swept) := by
    cases hold : s.engine.getTopic name with
    | some b =>
      refine ⟨b.topicId, _, rfl, rfl, h.opens name b hold,
        fun f hf => retainFrames_addresses (b := { b with config := config }) hf, ?_,
        fun s' now' hacked hlimited hderived hlim => ?_⟩
      · simp [applyPutTopic, hold, h.id_lt hold]
      obtain ⟨c, hc, hagree⟩ := h.present now' name b hold
      rw [hc]
      exact ⟨(steady_enforceRetention { b with config := config } now).topicId,
        hagree.put hacked hlimited hderived hlim now now', fun c hc => hc.retained S _ now⟩
    | none =>
      refine ⟨_, [], rfl, rfl, ⟨Nat.pos_iff_ne_zero.mp h.positive, fun e he hid =>
        absurd hid (Nat.ne_of_lt (h.logged e he)), hsettled (by rw [hold]; rfl)⟩,
        forall_mem_nil _, ?_, fun s' now' hacked _ _ hlim => ?_⟩
      · simp [applyPutTopic, hold]
      rw [h.absent now' name hold]
      refine ⟨rfl, Agrees.new (fun q r hq => ?_) hlim, fun c hc => hc⟩
      rw [hacked] at hq
      exact absurd rfl (Nat.ne_of_lt (h.ackedIds _ hq))
  have hget := getTopic_applyPutTopic s.engine now name config id
  generalize hs' : s.register S hash n name config now = s'
  have hengine : s'.engine = s.engine.applyPutTopic now name config id := by
    rw [← hs', ← hid]
    rfl
  have hlog : s'.log = s.log ++ (WalRecord.topicConfig id ⟨name, S.configToVec config⟩ false
      now.toNat :: swept).map (shardEntry hash n (some name)) := by
    rw [← hs', ← hid, ← hswept]
    rfl
  have hlimited : s'.limited = if config.limits then id :: s.limited else s.limited := by
    rw [← hs', ← hid]
    rfl
  have hsub : s.limited ⊆ s'.limited := by
    rw [hlimited]
    split
    · exact subset_cons_self _ _
    · exact fun _ hx => hx
  have hacked : s'.acked = s.acked := by
    rw [← hs']
    rfl
  have hderived : s'.derived = s.derived := by
    rw [← hs']
    rfl
  rw [← hengine] at hnext hget
  refine h.change name id ⟨hnext.1, hnext.2, fun y hy => (hget y).trans (if_neg hy),
    fun a ha => .inl (hacked ▸ ha), fun _ ha => hacked ▸ ha, hsub, fun _ ha => hderived ▸ ha,
    fun now' => ?_⟩
  obtain ⟨hlive, hagree, hsweep⟩ := hput s' now' hacked hsub hderived fun hno => by
    rw [hlimited] at hno
    split at hno
    · exact absurd mem_cons_self hno
    · rename_i hlim
      simpa using hlim
  have hconfig := (h.ok now').grown_config hS hopens config now.toNat
  have hgrown := hconfig.trans (grown_addressed hconfig.ok hconfig.opens hconfig.state
    (hagree.topicId.trans hlive) haddr)
  rw [append_assoc] at hgrown
  refine ⟨_, hlog ▸ hgrown, ?_⟩
  rw [hget, if_pos rfl]
  exact ⟨hlive, _, rfl, hsweep _ hagree⟩

theorem deleteTopic (h : TopicInv S hash n s)
    (hstep : s.deleteTopic hash n noBytes name now = some s') : TopicInv S hash n s' := by
  unfold Registry.deleteTopic at hstep
  split at hstep
  · cases hstep
  rename_i b hold
  cases hstep
  -- the tombstone first, then the frames of the cascade
  have hremoved : TopicInv S hash n { s with
      engine := s.engine.removeTopic name
      log := s.log ++ [shardEntry hash n (some name)
        (.topicConfig b.topicId ⟨name, noBytes⟩ true now.toNat)] } := by
    refine h.change name b.topicId
      { next := le_rfl
        id_lt := h.id_lt hold
        others := fun y hy => (getTopic_removeTopic s.engine name y).trans (if_neg hy)
        acked := fun a ha => Or.inl ha
        kept := fun _ ha => ha
        limited := fun _ ha => ha
        derived := fun _ ha => ha
        replayed := fun now' => ?_ }
    refine ⟨none, (h.ok now').grown_tombstone (h.opens name b hold) noBytes now.toNat, ?_⟩
    have hget := (getTopic_removeTopic s.engine name name).trans (if_pos rfl)
    simp only [hget]
  refine hremoved.quiet (fun now' => ?_) rfl (fun _ => rfl) rfl rfl fun _ hx => hx
  have hrouters : ∀ f ∈ (s.engine.routers.routersTouchingTopic name).map
      (fun r => (WalRecord.routerDelete r now.toNat : WalRecord Blob)), f.isRouter = true := by
    intro f hf
    obtain ⟨r, _, rfl⟩ := mem_map.mp hf
    rfl
  have hquiet := quiet_routerFrames (hremoved.ok now') hrouters
  rw [map_map, append_assoc] at hquiet
  exact hquiet

theorem touch (h : TopicInv S hash n s) (hold : s.engine.getTopic name = some b)
    (f : TopicState → TopicState) (hname : ∀ b, (f b).name = b.name)
    (hid : (f b).topicId = b.topicId) (frames : List (WalRecord Blob))
    (hframes : ∀ g ∈ frames, g.addresses b.topicId = true)
    (hengine : s'.engine = s.engine.modifyByName name f)
    (hlog : s'.log = s.log ++ frames.map (shardEntry hash n (some name)))
    (hacked : ∀ a ∈ s'.acked, a ∈ s.acked ∨ a.1 = b.topicId) (hkept : s.acked ⊆ s'.acked)
    (hlimited : s'.limited = s.limited) (hderived : s.derived ⊆ s'.derived)
    (hagrees : ∀ c, Agrees s b c → Agrees s' (f b) (c.replayAll S frames)) :
    TopicInv S hash n s' := by
  have hget := getTopic_modifyByName s.engine name hname
  refine h.change name b.topicId
    { next := by rw [hengine]; exact le_rfl
      id_lt := by rw [hengine]; exact h.id_lt hold
      others := fun y hy => by rw [hengine, hget, if_neg hy]
      acked := hacked
      kept := hkept
      limited := by rw [hlimited]; exact fun _ hx => hx
      derived := hderived
      replayed := fun now => ?_ }
  obtain ⟨c, hc, hagree⟩ := h.present now name b hold
  have hgrown := grown_addressed (h.ok now) (h.opens name b hold) hc hagree.topicId hframes
  rw [← hlog] at hgrown
  refine ⟨_, hgrown, ?_⟩
  rw [hengine, hget, if_pos rfl, hold]
  exact ⟨hid, _, rfl, hagrees c hagree⟩

theorem write (hS : S.RoundTrips) (h : TopicInv S hash n s) {records : List RecordIn}
    (hderived : ∀ b, s.engine.getTopic name = some b → b.topicId ∉ s.derived)
    (hstep : s.write S hash n name records now = some s') : TopicInv S hash n s' := by
  unfold Registry.write at hstep
  split at hstep
  · cases hstep
  rename_i b hold
  obtain ⟨hcond, hstep⟩ := Option.ite_none_right_eq_some.mp hstep
  obtain ⟨hclass, -, h0, h1⟩ := hcond
  cases hstep
  refine h.touch hold (fun b => b.append (records.map fun r => r.stored S now))
    (fun b => append_name b _) (append_topicId b _) _ ?_ rfl rfl ?_
    (subset_append_left _ _) rfl (fun _ ha => ha) fun c hagree => ?_
  · intro g hg
    rw [← map_uncurry_zip_eq_zipWith] at hg
    obtain ⟨p, _, rfl⟩ := mem_map.mp hg
    exact beq_self_eq_true _
  · intro a ha
    rcases mem_append.mp ha with ha | ha
    · exact Or.inl ha
    · rw [← map_uncurry_zip_eq_zipWith] at ha
      obtain ⟨p, _, rfl⟩ := mem_map.mp ha
      exact Or.inr rfl
  · exact (hagree.write hS hclass (hderived b hold) h0 h1 rfl).mono (fun _ _ => Iff.rfl)
      (fun _ hx => hx) fun _ hx => hx

theorem derive (h : TopicInv S hash n s) (f : TopicState → TopicState)
    (hname : ∀ b, (f b).name = b.name) (hid : ∀ b, (f b).topicId = b.topicId)
    (hconfig : ∀ b, (f b).config = b.config)
    (hdense : ∀ b : TopicState, b.index.tail = b.headSeq + 1 →
      (f b).index.tail = (f b).headSeq + 1) (hlog : s'.log = s.log) (hacked : s'.acked = s.acked)
    (hlimited : s'.limited = s.limited)
    (hderived : s'.derived = ((s.engine.getTopic dest).map (·.topicId)).toList ++ s.derived)
    (hengine : s'.engine = if s.engine.feeds dest then s.engine.modifyByName dest f
      else s.engine) : TopicInv S hash n s' := by
  have hsub : s.derived ⊆ s'.derived := by
    rw [hderived]
    exact subset_append_right _ _
  split at hengine
  · cases hold : s.engine.getTopic dest with
    | none =>
      refine h.same hlog (by rw [hengine]; rfl) (fun x => ?_) hacked hlimited hsub
      rw [hengine, getTopic_modifyByName s.engine dest hname]
      split
      · rename_i hx
        rw [← hx, hold]
        rfl
      · rfl
    | some b =>
      refine h.touch hold f hname (hid b) [] nofun hengine
        (by rw [hlog, map_nil, append_nil]) (by rw [hacked]; exact fun _ ha => Or.inl ha)
        (by rw [hacked]; exact fun _ ha => ha) hlimited hsub fun c hagree => ?_
      refine hagree.derived hacked hlimited ?_ (hid b) (hconfig b) (hdense b hagree.liveDense)
      rw [hderived, hold]
      exact mem_append_left _ (mem_singleton.mpr rfl)
  · exact h.same hlog (by rw [hengine]) (fun x => by rw [hengine]) hacked hlimited hsub

theorem pass (h : TopicInv S hash n s) (p : Pass) :
    TopicInv S hash n { s with
      engine := s.engine.pass p
      log := s.log ++ s.passEntries hash n p
      derived := s.derivedBy p ++ s.derived } := by
  cases p with
  | retain name now =>
    have hname : ∀ b : TopicState, (b.enforceRetention now).name = b.name :=
      fun b => (steady_enforceRetention b now).name
    cases hold : s.engine.getTopic name with
    | none =>
      refine h.same ?_ rfl (fun x => ?_) rfl rfl fun _ hx => hx
      · simp [passEntries, hold]
      refine (getTopic_modifyByName s.engine name hname x).trans ?_
      split
      · rename_i hx
        rw [← hx, hold]
        rfl
      · rfl
    | some b =>
      refine h.touch hold _ hname (steady_enforceRetention b now).topicId
        (retainFrames b now) (fun g hg => retainFrames_addresses hg) rfl ?_ (fun _ ha => Or.inl ha) (fun _ ha => ha)
        rfl (fun _ hx => hx) fun c hagree => ?_
      · simp [passEntries, hold]
      · have hkept := (hagree.steady (steady_enforceRetention b now)).retained S b now
        exact hkept.mono (fun _ _ => Iff.rfl) (fun _ hx => hx) fun _ hx => hx
  | trim dest =>
    refine h.derive noteSourceTrim (fun _ => rfl) (fun _ => rfl) (fun _ => rfl)
      (fun b hb => ?_) (append_nil _) rfl rfl rfl rfl
    simp [noteSourceTrim, stageAppend]
  | derive dest records =>
    refine h.derive (fun b => b.append records) (fun b => append_name b _)
      (fun b => append_topicId b _) (fun b => append_config b _) (fun b hb => ?_)
      (append_nil _) rfl rfl rfl rfl
    rw [append_index, TopicIndex.tail_pushAll, append_headSeq hb, hb]
    omega
  | note router cursor count =>
    exact h.same (append_nil _) rfl (fun _ => rfl) rfl rfl fun _ hx => hx

theorem ensureTopic (hS : S.RoundTrips) (h : TopicInv S hash n s)
    (hsettled : s.Settled hash n name s.engine.nextTopicId) (now : Int) :
    TopicInv S hash n (s.ensureTopic S hash n name now) := by
  unfold Registry.ensureTopic
  split
  · exact h
  · exact h.putTopic hS hsettled {} now

theorem settled_ensureTopic (hne : dest ≠ source) (hsettled : s.Settled hash n dest
      (s.engine.nextTopicId + if (s.engine.getTopic source).isNone then 1 else 0)) :
    (s.ensureTopic S hash n source now).Settled hash n dest
      (s.ensureTopic S hash n source now).engine.nextTopicId := by
  unfold Registry.ensureTopic
  cases hold : s.engine.getTopic source with
  | some b =>
    rw [hold] at hsettled
    simpa using hsettled
  | none =>
    rw [hold] at hsettled
    simp only [Option.isSome_none, Bool.false_eq_true, if_false]
    intro hnone e he htop
    have hnext : (s.register S hash n source {} now).engine.nextTopicId =
        s.engine.nextTopicId + 1 := by
      simp [register, applyPutTopic, hold]
    rw [hnext]
    have hget : (s.register S hash n source {} now).engine.getTopic dest =
        s.engine.getTopic dest :=
      (getTopic_applyPutTopic _ now source _ _ dest).trans (if_neg (Ne.symm hne))
    rw [hget] at hnone
    have hlog : (s.register S hash n source {} now).log = s.log ++
        [shardEntry hash n (some source) (.topicConfig s.engine.nextTopicId
          ⟨source, S.configToVec {}⟩ false now.toNat)] := by
      simp [register, hold]
    rw [hlog] at he
    rcases mem_append.mp he with he | he
    · exact hsettled hnone e he htop
    · rw [mem_singleton.mp he] at htop
      exact absurd (Option.some.inj htop).symm hne

theorem ensureBoth (hS : S.RoundTrips) (h : TopicInv S hash n s)
    (hsource : s.Settled hash n source s.engine.nextTopicId)
    (hdest : dest ≠ source → s.Settled hash n dest
      (s.engine.nextTopicId + if (s.engine.getTopic source).isNone then 1 else 0)) (now : Int) :
    TopicInv S hash n ((s.ensureTopic S hash n source now).ensureTopic S hash n dest now) := by
  have hfirst := h.ensureTopic hS hsource now
  by_cases hne : dest = source
  · -- the dest is the topic just ensured
    subst hne
    have hsome : ((s.ensureTopic S hash n dest now).engine.getTopic dest).isSome = true := by
      unfold Registry.ensureTopic
      split
      · assumption
      · exact congrArg Option.isSome
          ((getTopic_applyPutTopic _ now dest _ _ dest).trans (if_pos rfl))
    have hsame : (s.ensureTopic S hash n dest now).ensureTopic S hash n dest now =
        s.ensureTopic S hash n dest now := if_pos hsome
    rw [hsame]
    exact hfirst
  · exact hfirst.ensureTopic hS (settled_ensureTopic hne (hdest hne)) now

end TopicInv

theorem routers_ensureTopic (s : Registry Blob) (name : String) (now : Int) :
    (s.ensureTopic S hash n name now).engine.routers = s.engine.routers := by
  unfold ensureTopic
  split
  · rfl
  · exact routers_applyPutTopic _ now name _ _

variable {s s' : Registry Blob} {r : Router} {now : Int}

theorem putRouter_cases (hstep : s.putRouter S hash n r now = some s') :
    ∃ (g g₁ g₂ : RouterGraph) (op : RouterOp) (created : Bool) (s₁ : Registry Blob),
      s.engine.routers.upsert r = some (g, created) ∧ g₁.defs = g.defs ∧ g₂.defs = g.defs ∧
      op.router = r ∧
      s₁ = (({ s with engine := { s.engine with routers := g₁ } } : Registry Blob).ensureTopic S
        hash n r.source now).ensureTopic S hash n r.dest now ∧
      s' = { s₁ with
        engine := { s₁.engine with routers := g₂ }
        log := s₁.log ++ [shardEntry hash n none (.routerCreate op now.toNat)] } := by
  unfold putRouter at hstep
  obtain ⟨-, hstep⟩ := Option.ite_none_left_eq_some.mp hstep
  obtain ⟨-, hstep⟩ := Option.ite_none_left_eq_some.mp hstep
  obtain ⟨-, hstep⟩ := Option.ite_none_left_eq_some.mp hstep
  cases hup : s.engine.routers.upsert r with
  | none =>
    rw [hup] at hstep
    cases hstep
  | some p =>
    obtain ⟨g, created⟩ := p
    rw [hup] at hstep
    cases hstep
    refine ⟨g, _, _, _, created, _, rfl, ?_, ?_, rfl, rfl, rfl⟩
    · split
      · exact RouterGraph.defs_noteForwarded _ _ _ _
      · rfl
    · simp only [routers_ensureTopic]
      split
      · rw [RouterGraph.defs_seedDestBase, RouterGraph.defs_noteForwarded]
      · rfl

theorem TopicInv.putRouter (hS : S.RoundTrips) (h : TopicInv S hash n s)
    (hsource : s.Settled hash n r.source s.engine.nextTopicId)
    (hdest : r.dest ≠ r.source → s.Settled hash n r.dest
      (s.engine.nextTopicId + if (s.engine.getTopic r.source).isNone then 1 else 0))
    (hstep : s.putRouter S hash n r now = some s') : TopicInv S hash n s' := by
  obtain ⟨g, g₁, g₂, op, created, s₁, _, _, _, _, rfl, rfl⟩ := putRouter_cases hstep
  have hgraph : TopicInv S hash n { s with engine := { s.engine with routers := g₁ } } :=
    h.same rfl rfl (fun _ => rfl) rfl rfl fun _ hx => hx
  have hboth := hgraph.ensureBoth hS hsource hdest now
  refine hboth.quiet (fun now' => ?_) rfl (fun _ => rfl) rfl rfl fun _ hx => hx
  exact quiet_routerFrames (hboth.ok now') (forall_mem_singleton.mpr rfl :
    ∀ f ∈ [(.routerCreate op now.toNat : WalRecord Blob)], f.isRouter = true)

theorem TopicInv.deleteRouter (h : TopicInv S hash n s) {name : String}
    (hstep : s.deleteRouter hash n name now = some s') : TopicInv S hash n s' := by
  unfold Registry.deleteRouter at hstep
  split at hstep
  · cases hstep
  cases hstep
  refine h.quiet (fun now' => ?_) rfl (fun _ => rfl) rfl rfl fun _ hx => hx
  exact quiet_routerFrames (h.ok now') (forall_mem_singleton.mpr rfl :
    ∀ f ∈ [(.routerDelete name now.toNat : WalRecord Blob)], f.isRouter = true)

end Registry

end Topics
