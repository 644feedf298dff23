import Mathlib.Data.List.Induction
import Topics.NameReplay
import Topics.SplitTopics

/-!
# The sharded log and its recovery

`ShardedWalWriter` (`storage/sharded_wal.rs`) sends every frame to the shard of its topic id,
and recovery reads the shards one after another.  A frame is kept together with the topic
name it was logged for.
-/

namespace Topics

open Lib List Engine WalRecord

variable {Blob : Type}

/-- `shard_for_topic`.  `hash` is XXH3 of the id. -/
def shardForTopic (hash : Nat → Nat) (n id : Nat) : Nat :=
  if n ≤ 1 ∨ id = 0 then 0 else hash id % n

theorem shardForTopic_lt {n : Nat} (hn : 0 < n) (hash : Nat → Nat) (id : Nat) :
    shardForTopic hash n id < n := by
  unfold shardForTopic
  split
  · exact hn
  · exact Nat.mod_lt _ hn

/-- A logged frame with its shard and the topic name the call was about. -/
structure LogEntry (Blob : Type) where
  topic : Option String
  shard : Nat
  frame : WalRecord Blob

/-- A frame with the shard `ShardedWal` sends it to. -/
def shardEntry (hash : Nat → Nat) (n : Nat) (topic : Option String) (frame : WalRecord Blob) :
    LogEntry Blob :=
  ⟨topic, shardForTopic hash n frame.topicId, frame⟩

/-- The label of an entry is the one its frame shows: config frames name their topic, router
frames have none, all other frames belong to some topic. -/
def LogEntry.Labelled (e : LogEntry Blob) : Prop :=
  match e.frame with
  | .topicConfig topicId op _ _ => e.topic = some op.name ∧ topicId ≠ 0
  | .routerCreate .. => e.topic = none
  | .routerDelete .. => e.topic = none
  | .checkpointMark .. => e.topic = none
  | f => e.topic ≠ none ∧ f.topicId ≠ 0

/-- Whether an entry is the tombstone of a name. -/
def LogEntry.buries (e : LogEntry Blob) (name : String) : Bool :=
  match e.frame with
  | .topicConfig _ op tombstone _ => tombstone && op.name == name
  | _ => false

variable {e : LogEntry Blob} {x : String} {log l : List (LogEntry Blob)} {st : Option TopicState}
  {f : WalRecord Blob} {b : TopicState} {id : Nat} {frames : List (WalRecord Blob)}
  {shard : Nat → Nat}

theorem LogEntry.Labelled.id_ne_zero (h : e.Labelled) (hx : e.topic = some x) :
    e.frame.topicId ≠ 0 := by
  unfold LogEntry.Labelled at h
  cases hf : e.frame <;> rw [hf] at h <;> simp_all [topicId]

section Replay

variable (S : Serde Blob) (hash : Nat → Nat) (n : Nat) (now : Int)

def nameState (log : List (LogEntry Blob)) (x : String) : Option TopicState :=
  (log.map LogEntry.frame).foldl (nameStep S now x) none

/-- An entry fits behind the log: it lies in the shard of its id, an id belongs to one name,
the shards of a name never fall, and an `Append` finds its topic under its name. -/
structure Consistent (log : List (LogEntry Blob)) (e : LogEntry Blob) : Prop where
  labelled : e.Labelled
  placed : e.shard = shardForTopic hash n e.frame.topicId
  functional : ∀ e' ∈ log, e'.frame.topicId = e.frame.topicId → e'.topic = e.topic
  rising : ∀ e' ∈ log, ∀ x, e.topic = some x → e'.topic = some x → e'.shard ≤ e.shard
  found : ∀ id seq ts node tag data, e.frame = .append id seq ts node tag data →
    ∃ x b, e.topic = some x ∧ nameState S now log x = some b ∧ b.topicId = id

def LogOk (log : List (LogEntry Blob)) : Prop :=
  ∀ p e q, log = p ++ e :: q → Consistent S hash n now p e

end Replay

variable {S : Serde Blob} {hash : Nat → Nat} {n : Nat} {now : Int}

theorem LogOk.nil : LogOk S hash n now ([] : List (LogEntry Blob)) := by
  intro p e q h
  cases p <;> cases h

theorem LogOk.snoc (h : LogOk S hash n now log) (he : Consistent S hash n now log e) :
    LogOk S hash n now (log ++ [e]) := by
  intro p x q heq
  rcases eq_nil_or_concat q with rfl | ⟨q', y, rfl⟩
  · obtain ⟨rfl, hx⟩ := append_inj' heq rfl
    cases hx
    exact he
  · have hsplit : log ++ [e] = (p ++ x :: q') ++ [y] := by simpa using heq
    obtain ⟨hlog, _⟩ := append_inj' hsplit rfl
    exact h p x q' hlog

theorem LogOk.of_mem (h : LogOk S hash n now log) (he : e ∈ log) :
    e.Labelled ∧ e.shard = shardForTopic hash n e.frame.topicId := by
  obtain ⟨p, q, rfl⟩ := append_of_mem he
  exact ⟨(h p e q rfl).labelled, (h p e q rfl).placed⟩

theorem LogOk.of_append {p q : List (LogEntry Blob)} (h : LogOk S hash n now (p ++ q)) :
    LogOk S hash n now p := by
  intro p' e q' heq
  exact h p' e (q' ++ q) (by rw [heq]; simp)

theorem LogOk.functional (h : LogOk S hash n now log) {e e' : LogEntry Blob} (he : e ∈ log)
    (he' : e' ∈ log) (hid : e.frame.topicId = e'.frame.topicId) : e.topic = e'.topic := by
  obtain ⟨i, hi, rfl⟩ := mem_iff_getElem.mp he
  obtain ⟨j, hj, rfl⟩ := mem_iff_getElem.mp he'
  have hsplit : ∀ i (hi : i < log.length), log = log.take i ++ log[i] :: log.drop (i + 1) :=
    fun i hi => by rw [getElem_cons_drop, take_append_drop]
  have hmem : ∀ {i j} (hi : i < log.length), i < j → log[i] ∈ log.take j := by
    intro i j hi hij
    exact mem_take_iff_getElem.mpr ⟨i, by omega, rfl⟩
  rcases Nat.lt_trichotomy i j with hij | rfl | hij
  · exact (h _ _ _ (hsplit j hj)).functional _ (hmem hi hij) hid
  · rfl
  · exact ((h _ _ _ (hsplit i hi)).functional _ (hmem hj hij) hid.symm).symm

theorem LogOk.pairwise_shard (h : LogOk S hash n now log) (x : String) :
    (log.filter fun e => e.topic = some x).Pairwise
      fun e e' => e.shard ≤ e'.shard := by
  have hall : log.Pairwise fun e e' => e'.topic = some x → e.topic = some x →
      e.shard ≤ e'.shard := by
    refine pairwise_iff_getElem.mpr fun i j hi hj hij => ?_
    have hsplit : log = log.take j ++ log[j] :: log.drop (j + 1) := by
      rw [getElem_cons_drop, take_append_drop]
    have hmem : log[i] ∈ log.take j := mem_take_iff_getElem.mpr ⟨i, by omega, rfl⟩
    exact (h _ _ _ hsplit).rising _ hmem x
  refine (hall.filter _).imp_of_mem fun {e e'} he he' hle => ?_
  exact hle (of_decide_eq_true (mem_filter.mp he').2)
    (of_decide_eq_true (mem_filter.mp he).2)

/-! ## One name in the log -/

theorem nameState_snoc (l : List (LogEntry Blob)) (e : LogEntry Blob) (x : String) :
    nameState S now (l ++ [e]) x = nameStep S now x (nameState S now l x) e.frame := by
  simp [nameState]

theorem nameStep_of_ne (he : e.Labelled) (hx : e.topic ≠ some x)
    (hst : ∀ b, st = some b → b.topicId ≠ e.frame.topicId) :
    nameStep S now x st e.frame = st := by
  have haddr : st.map (fun b => if b.topicId = e.frame.topicId then b.replay S e.frame else b) =
      st := by
    cases st with
    | none => rfl
    | some b => rw [Option.map_some, if_neg (hst b rfl)]
  unfold LogEntry.Labelled at he
  cases hf : e.frame with
  | topicConfig topicId op tombstone ts =>
    rw [hf] at he
    have hne : op.name ≠ x := by
      rintro rfl
      exact hx he.1
    simp only [nameStep, hne, if_false]
  | routerCreate | routerDelete | checkpointMark => rfl
  | append | delete | evictWatermark | lease | headWatermark => rw [hf] at haddr; exact haddr

theorem topicId_nameStep (h : nameStep S now x st f = some b) :
    (∃ b', st = some b' ∧ b'.topicId = b.topicId) ∨ f.topicId = b.topicId := by
  have haddr : st.map (fun b => if b.topicId = f.topicId then b.replay S f else b) = some b →
      ∃ b', st = some b' ∧ b'.topicId = b.topicId := by
    intro hmap
    obtain ⟨b', hb', rfl⟩ := Option.map_eq_some_iff.mp hmap
    refine ⟨b', hb', ?_⟩
    split
    · exact (replay_topicId S b' f).symm
    · rfl
  cases f with
  | topicConfig topicId op tombstone ts =>
    simp only [nameStep] at h
    split at h
    · split at h
      · cases h
      · cases st with
        | none =>
          cases h
          exact Or.inr rfl
        | some b' =>
          cases h
          exact Or.inl ⟨b', rfl, (TopicState.steady_enforceRetention
            { b' with config := (S.configFromSlice op.config).getD {} } now).topicId.symm⟩
    · exact Or.inl ⟨b, h, rfl⟩
  | routerCreate | routerDelete | checkpointMark => exact Or.inl ⟨b, h, rfl⟩
  | append | delete | evictWatermark | lease | headWatermark => exact Or.inl (haddr h)

/-- What a list of entries has whatever its order. -/
structure Addressed (l : List (LogEntry Blob)) : Prop where
  labelled : ∀ e ∈ l, e.Labelled
  functional : ∀ e ∈ l, ∀ e' ∈ l, e.frame.topicId = e'.frame.topicId → e.topic = e'.topic

theorem Addressed.of_subset {l l' : List (LogEntry Blob)} (h : Addressed l) (hsub : l' ⊆ l) :
    Addressed l' :=
  ⟨fun e he => h.labelled e (hsub he), fun e he e' he' => h.functional e (hsub he) e' (hsub he')⟩

theorem LogOk.addressed (h : LogOk S hash n now log) :
    Addressed log :=
  ⟨fun _ he => (h.of_mem he).1, fun _ he _ he' => h.functional he he'⟩

theorem nameState_filter (h : Addressed l) (x : String) :
    (∀ b, nameState S now l x = some b →
      ∃ e ∈ l, e.topic = some x ∧ e.frame.topicId = b.topicId) ∧
    nameState S now l x = nameState S now (l.filter fun e => e.topic = some x) x := by
  induction l using reverseRecOn with
  | nil => exact ⟨nofun, rfl⟩
  | append_singleton l e ih =>
    obtain ⟨hid, hfilter⟩ := ih (h.of_subset (subset_append_left _ _))
    by_cases hx : e.topic = some x
    · refine ⟨fun b hb => ?_, ?_⟩
      · rw [nameState_snoc] at hb
        rcases topicId_nameStep hb with ⟨b', hb', hbid⟩ | hbid
        · obtain ⟨e', he', htop, hid'⟩ := hid b' hb'
          exact ⟨e', mem_append_left _ he', htop, hid'.trans hbid⟩
        · exact ⟨e, mem_append_right _ mem_cons_self, hx, hbid⟩
      · rw [filter_append, filter_cons_of_pos (by simpa using hx), filter_nil,
          nameState_snoc, nameState_snoc, hfilter]
    · have hskip : nameState S now (l ++ [e]) x = nameState S now l x := by
        rw [nameState_snoc]
        refine nameStep_of_ne (h.labelled e (by simp)) hx fun b hb hbid => ?_
        obtain ⟨e', he', htop, hid'⟩ := hid b hb
        refine hx ?_
        rw [← htop]
        exact (h.functional e' (mem_append_left _ he') e (by simp) (hid'.trans hbid)).symm
      refine ⟨fun b hb => ?_, ?_⟩
      · rw [hskip] at hb
        obtain ⟨e', he', h'⟩ := hid b hb
        exact ⟨e', mem_append_left _ he', h'⟩
      · rw [hskip, hfilter, filter_append, filter_cons_of_neg (by simpa using hx),
          filter_nil, append_nil]

/-! ## Reading in another order -/

private theorem split_of_filter {α : Type} {c : α → Bool} {l p q : List α} {e : α}
    (h : l.filter c = p ++ e :: q) : ∃ P Q, l = P ++ e :: Q ∧ P.filter c = p := by
  obtain ⟨l₁, l₂, rfl, h₁, h₂⟩ := filter_eq_append_iff.mp h
  obtain ⟨m₁, m₂, rfl, hno, _, _⟩ := filter_eq_cons_iff.mp h₂
  refine ⟨l₁ ++ m₁, m₂, by simp, ?_⟩
  rw [filter_append, h₁, filter_eq_nil_iff.mpr hno, append_nil]

/-- **Any order that keeps the entries of every name in order is as good as the log.**  The
induction is along the order in which the entries are read; an `Append` finds its topic
because, seen from its name, it stands where it stands in the log. -/
theorem tracks_of_filter_eq (h : LogOk S hash n now log) {R : List (LogEntry Blob)}
    (hsub : R ⊆ log)
    (hfilter : ∀ x, (R.filter fun e => e.topic = some x) = log.filter fun e => e.topic = some x) :
    Tracks ((R.map LogEntry.frame).foldl (Engine.replayFrame S now) Engine.empty)
      (nameState S now R) := by
  have hprefix : ∀ P Q, R = P ++ Q →
      Tracks ((P.map LogEntry.frame).foldl (replayFrame S now) empty)
        (nameState S now P) := by
    intro P
    induction P using reverseRecOn with
    | nil =>
      intro Q _
      exact ⟨nodup_nil, fun _ => rfl, fun _ _ b _ hb => by cases hb⟩
    | append_singleton P e ih =>
      intro Q hR
      have hR' : R = P ++ e :: Q := by rw [hR]; simp
      have htracks := ih (e :: Q) hR'
      have hP : P ⊆ log := fun a ha => hsub (by rw [hR']; exact mem_append_left _ ha)
      have he : e ∈ log := hsub (by rw [hR']; simp)
      have hPaddr := h.addressed.of_subset hP
      have hfits : Tracks.Fits (nameState S now P) e.frame := by
        cases hf : e.frame with
        | append id seq ts node tag data =>
          have hlabel := (h.of_mem he).1
          unfold LogEntry.Labelled at hlabel
          rw [hf] at hlabel
          obtain ⟨x, hx⟩ := Option.ne_none_iff_exists'.mp hlabel.1
          -- seen from its name, the entry stands where it stands in the log
          have hcut := hfilter x
          rw [hR', filter_append, filter_cons_of_pos (by simpa using hx)] at hcut
          obtain ⟨P', Q', hlog, hP'⟩ := split_of_filter hcut.symm
          obtain ⟨x', b, hx', hb, hid⟩ := (h P' e Q' hlog).found id seq ts node tag data hf
          rw [hx, Option.some.injEq] at hx'
          subst hx'
          refine ⟨x, b, ?_, hid⟩
          have hP'addr : Addressed P' := by
            rw [hlog] at h
            exact h.of_append.addressed
          rw [(nameState_filter hPaddr x).2, ← hP', ← (nameState_filter hP'addr x).2]
          exact hb
        | topicConfig id op tombstone ts =>
          intro y b hb hid
          obtain ⟨e', he', hy, hid'⟩ := (nameState_filter hPaddr y).1 b hb
          have hlabel := (h.of_mem he).1
          unfold LogEntry.Labelled at hlabel
          rw [hf] at hlabel
          have hsame := h.functional (hP he') he (by rw [hid', hid, hf]; rfl)
          rw [hy, hlabel.1, Option.some.injEq] at hsame
          exact hsame
        | _ => trivial
      have hstep := htracks.replayFrame (S := S) now hfits
      rw [map_append, foldl_append]
      refine Tracks.congr hstep fun x => ?_
      rw [nameState_snoc]
  exact hprefix R [] (by simp)

/-- **Recovery reads the shards one after another and finds every name as the log left it.** -/
theorem recover_topics (h : LogOk S hash n now log) (hn : 0 < n) (x : String) :
    (((buckets LogEntry.shard n log).map LogEntry.frame).foldl (Engine.replayFrame S now)
      Engine.empty).getTopic x = nameState S now log x := by
  have hlt : ∀ e ∈ log, e.shard < n := by
    intro e he
    rw [(h.of_mem he).2]
    exact shardForTopic_lt hn hash _
  have hfilter : ∀ x, ((buckets LogEntry.shard n log).filter fun e => e.topic = some x) =
      log.filter fun e => e.topic = some x := by
    intro x
    rw [filter_buckets]
    exact buckets_eq_self (fun e he => hlt e (mem_filter.mp he).1) (h.pairwise_shard x)
  have hsub := (buckets_perm hlt).subset
  rw [(tracks_of_filter_eq h hsub hfilter).get x,
    (nameState_filter (h.addressed.of_subset hsub) x).2, hfilter,
    ← (nameState_filter h.addressed x).2]

/-! ## Extending the log -/

variable (hash n) in
/-- The topic `id` may log under the name `x`: no other name has its id, and no frame of the
name lies in a higher shard. -/
structure Opens (log : List (LogEntry Blob)) (x : String) (id : Nat) : Prop where
  positive : id ≠ 0
  owns : ∀ e ∈ log, e.frame.topicId = id → e.topic = some x
  below : ∀ e ∈ log, e.topic = some x → e.shard ≤ shardForTopic hash n id

theorem Opens.snoc (h : Opens hash n log x id) (hid : f.topicId = id) :
    Opens hash n (log ++ [shardEntry hash n (some x) f]) x id where
  positive := h.positive
  owns e he heq := by
    rcases mem_append.mp he with he | he
    · exact h.owns e he heq
    · rw [mem_singleton.mp he]
      rfl
  below e he htop := by
    rcases mem_append.mp he with he | he
    · exact h.below e he htop
    · rw [mem_singleton.mp he, ← hid]
      exact le_rfl

theorem LogOk.snoc_opens (h : LogOk S hash n now log) (ho : Opens hash n log x id)
    (hid : f.topicId = id) (hlabel : (shardEntry hash n (some x) f).Labelled)
    (hfound : f.appendSeq?.isSome = true → ∃ b, nameState S now log x = some b ∧ b.topicId = id) :
    LogOk S hash n now (log ++ [shardEntry hash n (some x) f]) := by
  refine h.snoc ⟨hlabel, rfl, ?_, ?_, ?_⟩
  · intro e he heq
    exact ho.owns e he (heq.trans hid)
  · intro e he y hy htop
    cases hy
    refine (ho.below e he htop).trans (le_of_eq ?_)
    rw [← hid]
    rfl
  · intro id' seq ts node tag data hf
    have hf' : f = .append id' seq ts node tag data := hf
    obtain ⟨b, hb, hbid⟩ := hfound (by rw [hf']; rfl)
    refine ⟨x, b, rfl, hb, ?_⟩
    rw [hbid, ← hid, hf']
    rfl

theorem LogOk.snoc_router (h : LogOk S hash n now log)
    (hlabel : (shardEntry hash n none f).Labelled) (hid : f.topicId = 0)
    (happend : f.appendSeq? = none) : LogOk S hash n now (log ++ [shardEntry hash n none f]) := by
  refine h.snoc ⟨hlabel, rfl, ?_, ?_, ?_⟩
  · intro e he heq
    cases htop : e.topic with
    | none => rfl
    | some y =>
      have hzero : e.frame.topicId = 0 := heq.trans hid
      exact absurd hzero ((h.of_mem he).1.id_ne_zero htop)
  · intro e _ y hy
    cases hy
  · intro id' seq ts node tag data hf
    have hf' : f = .append id' seq ts node tag data := hf
    rw [hf'] at happend
    cases happend

def WalRecord.isRouter : WalRecord Blob → Bool
  | .routerCreate .. => true
  | .routerDelete .. => true
  | _ => false

structure Quiet (S : Serde Blob) (hash : Nat → Nat) (n : Nat) (now : Int)
    (log log' : List (LogEntry Blob)) : Prop where
  ok : LogOk S hash n now log'
  entries : ∀ e ∈ log', e ∈ log ∨ e.topic = none ∧ e.frame.topicId = 0
  state : ∀ x, nameState S now log' x = nameState S now log x

theorem quiet_routerFrames (h : LogOk S hash n now log) (hf : ∀ f ∈ frames, f.isRouter = true) :
    Quiet S hash n now log (log ++ frames.map (shardEntry hash n none)) := by
  induction frames generalizing log with
  | nil =>
    rw [map_nil, append_nil]
    exact ⟨h, fun _ he => Or.inl he, fun _ => rfl⟩
  | cons f frames ih =>
    have hrouter := hf f mem_cons_self
    have hone : LogOk S hash n now (log ++ [shardEntry hash n none f]) ∧ f.topicId = 0 ∧
        ∀ x st, nameStep S now x st f = st := by
      cases f with
      | routerCreate op ts | routerDelete name ts =>
        exact ⟨h.snoc_router rfl rfl rfl, rfl, fun _ _ => rfl⟩
      | _ => cases hrouter
    have hrest := ih hone.1 fun g hg => hf g (mem_cons_of_mem f hg)
    rw [append_assoc] at hrest
    refine ⟨hrest.ok, fun e he => ?_, fun x => ?_⟩
    · rcases hrest.entries e he with he | he
      · rcases mem_append.mp he with he | he
        · exact Or.inl he
        · rw [mem_singleton.mp he]
          exact Or.inr ⟨rfl, hone.2.1⟩
      · exact Or.inr he
    · refine (hrest.state x).trans ?_
      rw [nameState_snoc]
      exact hone.2.2 x _

theorem nameState_snoc_of_ne (h : LogOk S hash n now log) (ho : Opens hash n log x id)
    (hid : f.topicId = id) (hlabel : (shardEntry hash n (some x) f).Labelled) {y : String}
    (hy : x ≠ y) :
    nameState S now (log ++ [shardEntry hash n (some x) f]) y = nameState S now log y := by
  rw [nameState_snoc]
  refine nameStep_of_ne hlabel (fun heq => hy (Option.some.inj heq)) fun b hb hbid => hy ?_
  obtain ⟨e, he, htop, heid⟩ := (nameState_filter h.addressed y).1 b hb
  have := ho.owns e he (heid.trans (hbid.trans hid))
  rw [htop] at this
  exact (Option.some.inj this).symm

/-- What a log that grew by frames of the topic `id` under the name `x` looks like. -/
structure Grown (S : Serde Blob) (hash : Nat → Nat) (n : Nat) (now : Int)
    (log log' : List (LogEntry Blob)) (x : String) (id : Nat) (st : Option TopicState) :
    Prop where
  ok : LogOk S hash n now log'
  opens : Opens hash n log' x id
  entries : ∀ e ∈ log', e ∈ log ∨ e.topic = some x ∧ e.frame.topicId = id
  state : nameState S now log' x = st
  others : ∀ y, x ≠ y → nameState S now log' y = nameState S now log y

theorem LogOk.grown (h : LogOk S hash n now log) (ho : Opens hash n log x id)
    (hid : f.topicId = id) (hlabel : (shardEntry hash n (some x) f).Labelled)
    (hfound : f.appendSeq?.isSome = true → ∃ b, nameState S now log x = some b ∧ b.topicId = id)
    (hst : nameState S now (log ++ [shardEntry hash n (some x) f]) x = st) :
    Grown S hash n now log (log ++ [shardEntry hash n (some x) f]) x id st where
  ok := h.snoc_opens ho hid hlabel hfound
  opens := ho.snoc hid
  entries e he := by
    rcases mem_append.mp he with he | he
    · exact Or.inl he
    · rw [mem_singleton.mp he]
      exact Or.inr ⟨rfl, hid⟩
  state := hst
  others y hy := nameState_snoc_of_ne h ho hid hlabel hy

theorem LogOk.grown_config (hS : S.RoundTrips) (h : LogOk S hash n now log)
    (ho : Opens hash n log x id) (config : TopicConfig) (ts : Nat) :
    Grown S hash n now log
      (log ++ [shardEntry hash n (some x) (.topicConfig id ⟨x, S.configToVec config⟩ false ts)]) x id
      (some (putName now x config id (nameState S now log x))) := by
  have hlabel : (shardEntry hash n (some x)
      (.topicConfig id ⟨x, S.configToVec config⟩ false ts)).Labelled := ⟨rfl, ho.positive⟩
  refine h.grown ho rfl hlabel nofun ?_
  rw [nameState_snoc]
  simp [shardEntry, nameStep, hS.config]

theorem LogOk.grown_tombstone (h : LogOk S hash n now log) (ho : Opens hash n log x id)
    (bytes : Blob) (ts : Nat) :
    Grown S hash n now log
      (log ++ [shardEntry hash n (some x) (.topicConfig id ⟨x, bytes⟩ true ts)]) x id none := by
  have hlabel : (shardEntry hash n (some x) (.topicConfig id ⟨x, bytes⟩ true ts)).Labelled :=
    ⟨rfl, ho.positive⟩
  refine h.grown ho rfl hlabel nofun ?_
  rw [nameState_snoc]
  simp [shardEntry, nameStep]

theorem Grown.trans {log log' log'' : List (LogEntry Blob)} {st st' : Option TopicState}
    (h : Grown S hash n now log log' x id st) (h' : Grown S hash n now log' log'' x id st') :
    Grown S hash n now log log'' x id st' where
  ok := h'.ok
  opens := h'.opens
  entries e he := by
    rcases h'.entries e he with he | he
    · exact h.entries e he
    · exact Or.inr he
  state := h'.state
  others y hy := (h'.others y hy).trans (h.others y hy)

theorem WalRecord.topicId_of_addresses (h : f.addresses id = true) : f.topicId = id := by
  cases f with
  | append | delete | evictWatermark | lease | headWatermark => exact beq_iff_eq.mp h
  | _ => cases h

private theorem labelled_of_addresses (h : f.addresses id = true) (hid : id ≠ 0) (x : String) :
    (shardEntry hash n (some x) f).Labelled := by
  have htopic : f.topicId ≠ 0 := by
    rw [topicId_of_addresses h]
    exact hid
  cases f with
  | append | delete | evictWatermark | lease | headWatermark =>
    exact ⟨Option.some_ne_none x, htopic⟩
  | _ => cases h

private theorem nameStep_of_addresses (h : f.addresses b.topicId = true) (x : String) :
    nameStep S now x (some b) f = some (b.replay S f) := by
  have hif : (some b).map (fun b => if b.topicId = f.topicId then b.replay S f else b) =
      some (b.replay S f) := by
    rw [Option.map_some, if_pos (topicId_of_addresses h).symm]
  cases f with
  | append | delete | evictWatermark | lease | headWatermark => exact hif
  | _ => cases h

/-- **Frames of one topic** reach that topic and nothing else. -/
theorem grown_addressed (h : LogOk S hash n now log) (ho : Opens hash n log x id)
    (hb : nameState S now log x = some b) (hbid : b.topicId = id)
    (hf : ∀ f ∈ frames, f.addresses id = true) :
    Grown S hash n now log (log ++ frames.map (shardEntry hash n (some x))) x id
      (some (b.replayAll S frames)) := by
  induction frames generalizing log b with
  | nil =>
    rw [map_nil, append_nil]
    exact ⟨h, ho, fun _ he => Or.inl he, hb, fun _ _ => rfl⟩
  | cons f frames ih =>
    have haddr := hf f mem_cons_self
    have hid := topicId_of_addresses haddr
    have hlabel : (shardEntry hash n (some x) f).Labelled :=
      labelled_of_addresses haddr ho.positive x
    have hstep : nameState S now (log ++ [shardEntry hash n (some x) f]) x =
        some (b.replay S f) := by
      rw [nameState_snoc, hb]
      exact nameStep_of_addresses (by rw [hbid]; exact haddr) x
    have hone : Grown S hash n now log (log ++ [shardEntry hash n (some x) f]) x id
        (some (b.replay S f)) := h.grown ho hid hlabel (fun _ => ⟨b, hb, hbid⟩) hstep
    have hrest := ih hone.ok hone.opens hstep ((replay_topicId S b f).trans hbid)
      fun g hg => hf g (mem_cons_of_mem f hg)
    rw [append_assoc] at hrest
    exact hone.trans hrest

/-! ## The recovery loop on a sharded log -/

/-- The log as the writers of the shards see it. -/
def history (log : List (LogEntry Blob)) : List (Nat × WalRecord Blob) :=
  log.map fun e => (e.shard, e.frame)

theorem not_isSplit_of_placed (h : ∀ e ∈ log, e.shard = shard e.frame.topicId) (m id : Nat) :
    isSplit (groupsOf m (history log)) id = false := by
  have hone : (groupsOf m (history log)).countP (fun g => g.any fun f => f.topicId = id) ≤ 1 := by
    unfold groupsOf
    rw [countP_map]
    have hle : (range m).countP ((fun g : List (WalRecord Blob) =>
        g.any fun f => f.topicId = id) ∘ fun g =>
          ((history log).filter fun e => e.1 = g).map Prod.snd) ≤
        (range m).countP (fun g => g == shard id) := by
      refine countP_mono_left fun g _ hany => ?_
      simp only [Function.comp_apply, any_eq_true, mem_map, mem_filter,
        decide_eq_true_eq] at hany
      obtain ⟨f, ⟨p, ⟨hp, hpg⟩, rfl⟩, hid⟩ := hany
      obtain ⟨e, he, rfl⟩ := mem_map.mp hp
      rw [beq_iff_eq, ← hpg, ← hid]
      exact h e he
    exact hle.trans (nodup_iff_count_le_one.mp nodup_range (shard id))
  unfold isSplit
  simp only [decide_eq_false_iff_not, not_and, Nat.not_lt]
  exact fun _ => hone

private theorem map_frame_place (held : Nat → Nat) (history : List (Nat × WalRecord Blob)) :
    (place held history).map (fun e => (e.go, e.frame)) = history := by
  induction history generalizing held with
  | nil => rfl
  | cons e history ih => simp [place, ih]

theorem replayOrder_frames (h : ∀ e ∈ log, e.shard = shard e.frame.topicId) (m : Nat)
    {order : List Nat} (horder : ∀ id ∈ order, isSplit (groupsOf m (history log)) id = true) :
    (replayOrder (groupsOf m (history log)) order).map Placed.frame =
      (buckets LogEntry.shard m log).map LogEntry.frame := by
  have hnil : order = [] := by
    refine eq_nil_iff_forall_not_mem.mpr fun id hid => ?_
    have hsplit := horder id hid
    rw [not_isSplit_of_placed h] at hsplit
    cases hsplit
  subst hnil
  unfold replayOrder
  rw [filter_eq_self.mpr (fun e _ => by rw [not_isSplit_of_placed h]; rfl),
    flatMap_nil, append_nil, scan_groupsOf]
  unfold buckets
  rw [map_flatMap, map_flatMap]
  refine flatMap_congr fun g _ => ?_
  -- inside one shard the placed frames are the frames of the log
  have hplace := map_frame_place (fun _ => 0) (history log)
  have hgo : ((place (fun _ => 0) (history log)).filter fun e => e.go = g).map Placed.frame =
      (((place (fun _ => 0) (history log)).map fun e => (e.go, e.frame)).filter
        fun p => p.1 = g).map Prod.snd := by
    rw [filter_map, map_map]
    rfl
  rw [hgo, hplace, history, filter_map, map_map]
  rfl

end Topics
