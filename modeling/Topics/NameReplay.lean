import Topics.Replay

/-!
# Replay seen from one topic name

Topics are created, replaced and removed by name but addressed by id everywhere else.  What a
frame does to the topic registered under one name is a function of that topic alone, as long
as no two names carry the same id.
-/

namespace Topics

open TopicState List Option Engine

variable {Blob : Type} (S : Serde Blob)

/-! ## Lists with one element to modify -/

theorem find?_modifyFirst {α : Type} {p q : α → Bool} {f : α → α} {l : List α}
    (hq : ∀ a ∈ l, q (f a) = q a) (huniq : l.Pairwise fun a b => ¬ (p a = true ∧ p b = true)) :
    (modifyFirst p f l).find? q = (l.find? q).map fun a => if p a then f a else a := by
  induction l with
  | nil => rfl
  | cons a l ih =>
    obtain ⟨ha, hl⟩ := pairwise_cons.mp huniq
    have hqa := hq a mem_cons_self
    have ih := ih (fun b hb => hq b (mem_cons_of_mem a hb)) hl
    unfold modifyFirst
    cases hp : p a with
    | false =>
      simp only [Bool.false_eq_true, if_false, find?_cons]
      cases hqa' : q a with
      | true => simp [hp]
      | false => exact ih
    | true =>
      simp only [if_true, find?_cons, hqa]
      cases hqa' : q a with
      | true => simp [hp]
      | false =>
        -- no further element satisfies `p`
        refine (map_id'.symm).trans (map_congr fun b hb => ?_)
        have hb' : ¬ p b = true := fun h => ha b (mem_of_find?_eq_some hb) ⟨hp, h⟩
        rw [if_neg hb']

theorem find?_modifyFirst_self {α : Type} {p : α → Bool} {f : α → α} (hp : ∀ a, p (f a) = p a)
    (l : List α) : (modifyFirst p f l).find? p = (l.find? p).map f := by
  induction l with
  | nil => rfl
  | cons a l ih =>
    unfold modifyFirst
    cases ha : p a with
    | true => simp [hp, ha]
    | false => simpa [find?_cons, ha] using ih

theorem find?_modifyFirst_of_disjoint {α : Type} {p q : α → Bool} {f : α → α}
    (hq : ∀ a, q (f a) = q a) (hpq : ∀ a, q a = true → p a = false) (l : List α) :
    (modifyFirst p f l).find? q = l.find? q := by
  induction l with
  | nil => rfl
  | cons a l ih =>
    unfold modifyFirst
    cases hp : p a with
    | false => simp [find?_cons, ih]
    | true =>
      have hqa : q a = false := Bool.eq_false_iff.mpr fun h => by simp [hpq a h] at hp
      simp [hq, hqa]

theorem map_modifyFirst {α β : Type} {p : α → Bool} {f : α → α} {g : α → β} {l : List α}
    (h : ∀ a ∈ l, g (f a) = g a) : (modifyFirst p f l).map g = l.map g := by
  induction l with
  | nil => rfl
  | cons a l ih =>
    unfold modifyFirst
    split
    · simp [h a mem_cons_self]
    · simp [ih fun b hb => h b (mem_cons_of_mem a hb)]

/-! ## One name -/

theorem TopicState.replay_name (b : TopicState) (f : WalRecord Blob) :
    (b.replay S f).name = b.name := by
  cases f with
  | append =>
    simp only [replay]
    split
    · split
      · rw [append_singleton]
      · rfl
    · rfl
  | delete =>
    simp only [replay]
    split
    · split
      · exact (steady_applyDelete b _ _ _ _).name
      · exact (steady_deleteSeqs b _).name
    · rfl
  | lease | headWatermark => simp only [replay]; split <;> rfl
  | _ => rfl

/-- What `apply_put_topic` leaves under the name. -/
def putName (now : Int) (name : String) (config : TopicConfig) (id : Nat) :
    Option TopicState → TopicState
  | some b => { b with config := config }.enforceRetention now
  | none => TopicState.new name id config seqBaseDefault

namespace Engine

theorem getTopic_modifyByName (E : Engine) (name : String) {f : TopicState → TopicState}
    (hname : ∀ b, (f b).name = b.name) (x : String) :
    (E.modifyByName name f).getTopic x =
      if name = x then (E.getTopic x).map f else E.getTopic x := by
  by_cases hx : name = x
  · subst hx
    rw [if_pos rfl]
    exact find?_modifyFirst_self (fun b => by rw [hname]) E.topics
  · rw [if_neg hx]
    refine find?_modifyFirst_of_disjoint (fun b => by rw [hname]) (fun b hb => ?_) E.topics
    simpa [of_decide_eq_true hb] using Ne.symm hx

theorem getTopic_applyPutTopic (E : Engine) (now : Int) (name : String) (config : TopicConfig)
    (id : Nat) (x : String) :
    (E.applyPutTopic now name config id).getTopic x =
      if name = x then some (putName now name config id (E.getTopic name)) else E.getTopic x := by
  unfold applyPutTopic
  cases hold : E.getTopic name with
  | some b =>
    simp only [isSome_some, if_true]
    refine (getTopic_modifyByName E name (fun b =>
      (steady_enforceRetention { b with config := config } now).name) x).trans ?_
    by_cases hx : name = x
    · subst hx
      rw [if_pos rfl, if_pos rfl, hold]
      rfl
    · rw [if_neg hx, if_neg hx]
  | none =>
    simp only [isSome_none, Bool.false_eq_true, if_false]
    change find? _ (E.topics ++ _) = _
    rw [find?_append]
    by_cases hx : name = x
    · subst hx
      have : find? (fun b => decide (b.name = name)) E.topics = none := hold
      rw [this, if_pos rfl]
      simp [new, putName]
    · rw [if_neg hx]
      simp [getTopic, new, hx]

theorem getTopic_removeTopic (E : Engine) (name x : String) :
    (E.removeTopic name).getTopic x = if name = x then none else E.getTopic x := by
  change find? _ (E.topics.filter _) = _
  rw [find?_filter]
  by_cases hx : name = x
  · subst hx
    simp
  · rw [if_neg hx]
    unfold getTopic
    congr 1
    funext b
    by_cases hb : b.name = x
    · simp [hb, Ne.symm hx]
    · simp [hb]

end Engine

/-- The effect of one frame on the topic registered under `x`. -/
def nameStep (now : Int) (x : String) (st : Option TopicState) :
    WalRecord Blob → Option TopicState
  | .topicConfig topicId op tombstone _ =>
    if op.name = x then
      if tombstone then none
      else some (putName now x ((S.configFromSlice op.config).getD {}) topicId st)
    else st
  | .routerCreate .. => st
  | .routerDelete .. => st
  | .checkpointMark .. => st
  | f => st.map fun b => if b.topicId = f.topicId then b.replay S f else b

/-- The engine holds `st x` under every name `x`, and no id twice. -/
structure Tracks (E : Engine) (st : String → Option TopicState) : Prop where
  names : (E.topics.map TopicState.name).Nodup
  get : ∀ x, E.getTopic x = st x
  ids : ∀ x y b c, st x = some b → st y = some c → b.topicId = c.topicId → x = y

namespace Tracks

variable {S} {E : Engine} {st : String → Option TopicState}

variable {x : String} {b b₀ : TopicState} {f : TopicState → TopicState}

section

variable (h : Tracks E st)

include h

theorem get_of_mem (hb : b ∈ E.topics) : st b.name = some b := by
  rw [← h.get]
  obtain ⟨c, hc⟩ : ∃ c, E.getTopic b.name = some c := by
    rw [← isSome_iff_exists]
    exact find?_isSome.mpr ⟨b, hb, by simp⟩
  have hname : c.name = b.name := by
    have := find?_some hc
    simpa using this
  have hcb : c = b := inj_on_of_nodup_map h.names (mem_of_find?_eq_some hc) hb hname
  rw [hc, hcb]

theorem mem_of_get (hb : st x = some b) : b ∈ E.topics := by
  rw [← h.get x] at hb
  exact mem_of_find?_eq_some hb

theorem pairwise_ids (id : Nat) :
    E.topics.Pairwise fun a b => ¬ (decide (a.topicId = id) = true ∧ decide (b.topicId = id) = true) := by
  have hnames := pairwise_map.mp h.names
  refine hnames.imp_of_mem fun {a b} ha hb hne hid => hne ?_
  simp only [decide_eq_true_eq] at hid
  exact h.ids _ _ a b (h.get_of_mem ha) (h.get_of_mem hb) (hid.1.trans hid.2.symm)

theorem getTopicById_isSome (hb : st x = some b) : (E.getTopicById b.topicId).isSome = true :=
  find?_isSome.mpr ⟨b, h.mem_of_get hb, by simp⟩

theorem modifyById (id : Nat) (hname : ∀ b, (f b).name = b.name)
    (hid : ∀ b, (f b).topicId = b.topicId) :
    Tracks (E.modifyById id f) fun x => (st x).map fun b => if b.topicId = id then f b else b where
  names := by
    unfold Engine.modifyById
    rw [map_modifyFirst fun b _ => hname b]
    exact h.names
  get x := by
    have hfind := find?_modifyFirst (q := fun b => decide (b.name = x)) (f := f)
      (fun b _ => by rw [hname]) (h.pairwise_ids id)
    refine hfind.trans ?_
    rw [← h.get x]
    simp [getTopic]
  ids x y b c hx hy heq := by
    obtain ⟨b', hb', rfl⟩ := map_eq_some_iff.mp hx
    obtain ⟨c', hc', rfl⟩ := map_eq_some_iff.mp hy
    refine h.ids x y b' c' hb' hc' ?_
    have hkeep : ∀ a : TopicState, (if a.topicId = id then f a else a).topicId = a.topicId := by
      intro a
      split
      · exact hid a
      · rfl
    rw [hkeep, hkeep] at heq
    exact heq

theorem assign {E' : Engine} {name : String} (hnames : (E'.topics.map TopicState.name).Nodup)
    (hget : ∀ x, E'.getTopic x = if name = x then some b₀ else E.getTopic x)
    (hid : ∀ y b, st y = some b → b.topicId = b₀.topicId → y = name) :
    Tracks E' fun x => if name = x then some b₀ else st x where
  names := hnames
  get x := by rw [hget, h.get]
  ids x y b c hx hy heq := by
    by_cases hnx : name = x
    · by_cases hny : name = y
      · exact hnx.symm.trans hny
      · rw [if_pos hnx] at hx
        rw [if_neg hny] at hy
        cases hx
        exact absurd (hid y c hy heq.symm).symm hny
    · rw [if_neg hnx] at hx
      by_cases hny : name = y
      · rw [if_pos hny] at hy
        cases hy
        exact absurd (hid x b hx heq).symm hnx
      · rw [if_neg hny] at hy
        exact h.ids x y b c hx hy heq

theorem putTopic (now : Int) (name : String) (config : TopicConfig) {id : Nat}
    (hid : ∀ y b, st y = some b → b.topicId = id → y = name) :
    Tracks (E.applyPutTopic now name config id) fun x =>
      if name = x then some (putName now name config id (st name)) else st x := by
  have hsteady : ∀ b : TopicState, TopicState.Steady { b with config := config }
      ({ b with config := config }.enforceRetention now) :=
    fun b => steady_enforceRetention _ now
  have hget := getTopic_applyPutTopic E now name config id
  rw [h.get] at hget
  cases hst : st name with
  | some b₀ =>
    rw [hst] at hget
    refine h.assign ?_ hget fun y b hy heq =>
      h.ids y name b b₀ hy hst (heq.trans (hsteady b₀).topicId)
    rw [applyPutTopic, if_pos (by rw [h.get, hst]; rfl)]
    exact (map_modifyFirst fun b _ => (hsteady b).name).symm ▸ h.names
  | none =>
    rw [hst] at hget
    refine h.assign ?_ hget hid
    rw [applyPutTopic, if_neg (by rw [h.get, hst]; simp), map_append, nodup_append]
    refine ⟨h.names, nodup_singleton _, fun a ha c hc hac => ?_⟩
    obtain ⟨b, hb, rfl⟩ := mem_map.mp ha
    have hname : b.name = name := hac.trans (mem_singleton.mp hc)
    rw [← hname, h.get_of_mem hb] at hst
    cases hst

theorem removeTopic (name : String) :
    Tracks (E.removeTopic name) fun x => if name = x then none else st x where
  names := h.names.sublist (filter_sublist.map _)
  get x := by rw [Engine.getTopic_removeTopic, h.get]
  ids x y b c hx hy heq := by
    by_cases hnx : name = x
    · rw [if_pos hnx] at hx
      cases hx
    · by_cases hny : name = y
      · rw [if_pos hny] at hy
        cases hy
      · rw [if_neg hnx] at hx
        rw [if_neg hny] at hy
        exact h.ids x y b c hx hy heq

theorem congr {st' : String → Option TopicState} (heq : ∀ x, st x = st' x) : Tracks E st' := by
  have : st = st' := funext heq
  rw [← this]
  exact h

theorem of_topics {E' : Engine} (heq : E'.topics = E.topics) : Tracks E' st where
  names := by rw [heq]; exact h.names
  get x := by rw [← h.get x, Engine.getTopic, heq]; rfl
  ids := h.ids

end

/-- What a frame needs to act on one name only: an `Append` finds its topic, and a config frame
carries an id no other name has. -/
def Fits (st : String → Option TopicState) : WalRecord Blob → Prop
  | .append topicId .. => ∃ x b, st x = some b ∧ b.topicId = topicId
  | .topicConfig topicId op _ _ => ∀ y b, st y = some b → b.topicId = topicId → y = op.name
  | _ => True

/-- **`replay_frame` acts on every name by itself.** -/
theorem replayFrame (h : Tracks E st) (now : Int) {f : WalRecord Blob} (hf : Fits st f) :
    Tracks (Engine.replayFrame S now E f) fun x => nameStep S now x (st x) f := by
  have haddr : ∀ g : WalRecord Blob, Tracks (E.modifyById g.topicId fun b => b.replay S g)
      fun x => (st x).map fun b => if b.topicId = g.topicId then b.replay S g else b :=
    fun g => h.modifyById _ (fun b => replay_name S b g)
      (fun b => replay_topicId S b g)
  cases f with
  | topicConfig topicId op tombstone ts =>
    cases tombstone with
    | true =>
      refine (h.removeTopic op.name).congr fun x => ?_
      simp [nameStep]
    | false =>
      refine (h.putTopic now op.name _ hf).congr fun x => ?_
      by_cases hx : op.name = x
      · subst hx
        simp [nameStep]
      · simp [nameStep, hx]
  | append topicId seq ts node tag data =>
    obtain ⟨x, b, hx, rfl⟩ := hf
    simp only [Engine.replayFrame, h.getTopicById_isSome hx, if_true]
    exact haddr (.append b.topicId seq ts node tag data)
  | delete topicId beforeSeq match_ seqs boundHead ts =>
    exact haddr (.delete topicId beforeSeq match_ seqs boundHead ts)
  | evictWatermark topicId evictFloor expiryFloor earliestSeq ts =>
    exact haddr (.evictWatermark topicId evictFloor expiryFloor earliestSeq ts)
  | lease topicId seq event node leaseId deadline deliveries ts =>
    exact haddr (.lease topicId seq event node leaseId deadline deliveries ts)
  | headWatermark topicId headSeq ts => exact haddr (.headWatermark topicId headSeq ts)
  | routerCreate | routerDelete => exact h.of_topics rfl
  | checkpointMark => exact h

end Tracks

theorem Engine.getTopic_applyHeadWatermarks (E : Engine) (x : String) :
    E.applyHeadWatermarks.getTopic x = (E.getTopic x).map TopicState.applyHeadWatermark := by
  have hname : ∀ b : TopicState, b.applyHeadWatermark.name = b.name := by
    intro b
    rw [applyHeadWatermark_eq]
    split <;> rfl
  simp [applyHeadWatermarks, getTopic, find?_map, Function.comp_def, hname]

end Topics
