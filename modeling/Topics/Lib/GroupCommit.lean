import Mathlib.Data.List.Basic
import Mathlib.Data.List.Nodup
import Mathlib.Tactic.Tauto

/-!
# A log with group commit

An append-only log served by one writer.  Clients submit lists of frames and wait for the
result; the writer takes the submissions in order, a batch at a time, writes the batch behind
the committed frames and, if one of them asked for durability, syncs the log.  A failed batch
is rewound: its frames leave the log, though their bytes may still lie behind its end.  The
writer can also rotate to a fresh file; whatever still parses behind the end of the old file
then stays in the log for good.
-/

namespace Topics.Lib

open List

universe u

variable {F : Type u}

/-- What a client hands to the writer. -/
structure Submission (F : Type u) where
  id : Nat
  frames : List F
  durable : Bool

/-- The state of the log and its writer. -/
structure CommitLog (F : Type u) where
  /-- Frames of the settled batches, oldest first. -/
  committed : List F
  /-- Length of the part of `committed` known to be on stable storage. -/
  synced : Nat
  /-- The batch whose bytes are behind `committed` and whose fate is open. -/
  writing : Option (List (Submission F))
  queue : List (Submission F)
  /-- Settled submissions with their result, latest first. -/
  settled : List (Submission F × Bool)
  nextId : Nat

/-- The writer's actions. -/
inductive LogAction where
  /-- Take `k` submissions and write them. -/
  | write (k : Nat)
  /-- Take `k` submissions and fail to write them. -/
  | writeFail (k : Nat)
  /-- Settle the written batch, syncing the log if the batch asked for it. -/
  | finish
  /-- The sync of the written batch fails. -/
  | syncFail
  /-- Open a new file.  `garbage` picks the failed frames that still parse behind the end of
  the old one; `sync` is whether its last sync went through. -/
  | rotate (garbage : List Nat) (sync : Bool)

namespace CommitLog

/-- The frames of a list of submissions. -/
def framesOf (subs : List (Submission F)) : List F := subs.flatMap (·.frames)

/-- A log opened on the frames that were found in it. -/
def reopen (frames : List F) : CommitLog F where
  committed := frames
  synced := frames.length
  writing := none
  queue := []
  settled := []
  nextId := 0

/-- All frames in the log file: the committed ones and the batch being written. -/
def log (w : CommitLog F) : List F := w.committed ++ framesOf (w.writing.getD [])

/-- Submissions that are not settled yet, in order. -/
def pending (w : CommitLog F) : List (Submission F) := w.writing.getD [] ++ w.queue

/-- Everything ever submitted. -/
def submissions (w : CommitLog F) : List (Submission F) := w.pending ++ w.settled.map Prod.fst

/-- The log as it will read once every pending submission is written. -/
def stream (w : CommitLog F) : List F := w.committed ++ framesOf w.pending

/-- The frames of the batches that failed. -/
def failedFrames (w : CommitLog F) : List F :=
  framesOf ((w.settled.filter fun e => !e.2).map Prod.fst)

/-- The result of a submission, once it is settled. -/
def outcome (w : CommitLog F) (id : Nat) : Option Bool :=
  (w.settled.find? fun e => e.1.id = id).map Prod.snd

/-- The failed frames at the given positions. -/
def garbage (w : CommitLog F) (picks : List Nat) : List F :=
  picks.filterMap fun i => w.failedFrames[i]?

/-- What a crash can leave: at least the synced part, possibly more of the log, and behind it
whatever failed frames still parse. -/
def survivors (w : CommitLog F) (keep : Nat) (picks : List Nat) : List F :=
  w.log.take keep ++ w.garbage picks

/-- Hand frames to the writer. -/
def submit (w : CommitLog F) (frames : List F) (durable : Bool) : CommitLog F :=
  { w with
    queue := w.queue ++ [{ id := w.nextId, frames := frames, durable := durable }]
    nextId := w.nextId + 1 }

/-- Record the result of a batch. -/
def settle (w : CommitLog F) (batch : List (Submission F)) (ok : Bool) :
    List (Submission F × Bool) :=
  batch.map (·, ok) ++ w.settled

/-- One action of the writer. -/
def step (w : CommitLog F) : LogAction → Option (CommitLog F)
  | .write k =>
    if w.writing.isNone ∧ 0 < k ∧ k ≤ w.queue.length then
      some { w with writing := some (w.queue.take k), queue := w.queue.drop k }
    else none
  | .writeFail k =>
    if w.writing.isNone ∧ 0 < k ∧ k ≤ w.queue.length then
      some { w with queue := w.queue.drop k, settled := w.settle (w.queue.take k) false }
    else none
  | .finish =>
    match w.writing with
    | none => none
    | some batch =>
      some { w with
        committed := w.log
        synced := if batch.any (·.durable) then w.log.length else w.synced
        writing := none
        settled := w.settle batch true }
  | .syncFail =>
    match w.writing with
    | none => none
    | some batch =>
      if batch.any (·.durable) then
        some { w with writing := none, settled := w.settle batch false }
      else none
  | .rotate picks sync =>
    if w.writing.isNone then
      some { w with
        committed := w.committed ++ w.garbage picks
        synced := if sync then (w.committed ++ w.garbage picks).length else w.synced }
    else none

/-! ## What an action can do -/

/-- The effects of the writer's actions. -/
inductive Effect (w w' : CommitLog F) : LogAction → Prop where
  /-- The file grew; no submission changed hands. -/
  | idle (k : Nat) (hc : w'.committed = w.committed) (hs : w'.synced = w.synced)
      (hp : w'.pending = w.pending) (hd : w'.settled = w.settled) : Effect w w' (.write k)
  /-- The first pending submissions were committed as one batch. -/
  | commit (batch rest : List (Submission F)) (hp : w.pending = batch ++ rest)
      (hp' : w'.pending = rest) (hc : w'.committed = w.committed ++ framesOf batch)
      (hd : w'.settled = w.settle batch true) (hw : w.writing = some batch)
      (hs : w'.synced = if batch.any (·.durable) then w'.committed.length else w.synced) :
      Effect w w' .finish
  /-- The first pending submissions failed as one batch. -/
  | fail (a : LogAction) (batch rest : List (Submission F)) (hp : w.pending = batch ++ rest)
      (hp' : w'.pending = rest) (hc : w'.committed = w.committed)
      (hd : w'.settled = w.settle batch false) (hs : w'.synced = w.synced)
      (ha : (∃ k, a = .writeFail k ∧ batch = w.queue.take k) ∨
        a = .syncFail ∧ w.writing = some batch) : Effect w w' a
  /-- Failed frames were left in the log by a rotation. -/
  | leave (picks : List Nat) (sync : Bool) (hp : w'.pending = w.pending)
      (hc : w'.committed = w.committed ++ w.garbage picks) (hd : w'.settled = w.settled)
      (hs : w'.synced = w.synced ∨ w'.synced = w'.committed.length) :
      Effect w w' (.rotate picks sync)

variable {w w' : CommitLog F} {a : LogAction} {s : Submission F} {f : F} {ok : Bool}

/-- **Inversion of `step`.** -/
theorem effect_of_step (h : w.step a = some w') :
    Effect w w' a ∧ w'.nextId = w.nextId := by
  cases a with
  | write k =>
    obtain ⟨hg, ⟨⟩⟩ := Option.ite_none_right_eq_some.mp h
    have hw : w.writing = none := Option.isNone_iff_eq_none.mp hg.1
    refine ⟨Effect.idle k rfl rfl ?_ rfl, rfl⟩
    simp [pending, hw]
  | writeFail k =>
    obtain ⟨hg, ⟨⟩⟩ := Option.ite_none_right_eq_some.mp h
    have hw : w.writing = none := Option.isNone_iff_eq_none.mp hg.1
    refine ⟨Effect.fail _ (w.queue.take k) (w.queue.drop k) ?_ ?_ rfl rfl rfl
      (Or.inl ⟨k, rfl, rfl⟩), rfl⟩
    all_goals simp [pending, hw]
  | finish =>
    simp only [step] at h
    cases hw : w.writing with
    | none => rw [hw] at h; cases h
    | some batch =>
      rw [hw] at h
      cases h
      refine ⟨Effect.commit batch w.queue ?_ rfl ?_ rfl hw rfl, rfl⟩
      · simp [pending, hw]
      · simp [log, hw]
  | syncFail =>
    simp only [step] at h
    cases hw : w.writing with
    | none => rw [hw] at h; cases h
    | some batch =>
      rw [hw] at h
      simp only at h
      split at h
      · cases h
        refine ⟨Effect.fail _ batch w.queue ?_ rfl rfl rfl rfl (Or.inr ⟨rfl, hw⟩), rfl⟩
        simp [pending, hw]
      · cases h
  | rotate picks sync =>
    obtain ⟨-, ⟨⟩⟩ := Option.ite_none_right_eq_some.mp h
    refine ⟨Effect.leave picks sync rfl rfl rfl ?_, rfl⟩
    cases sync
    · exact Or.inl rfl
    · exact Or.inr rfl

/-- Committed frames are never taken back. -/
theorem committed_prefix_of_effect (h : Effect w w' a) :
    w.committed <+: w'.committed := by
  cases h with
  | idle k hc | fail a batch rest hp hp' hc => exact hc ▸ prefix_refl _
  | commit batch rest hp hp' hc | leave picks sync hp hc =>
    rw [hc]
    exact prefix_append _ _

/-! ## Frames of lists of submissions -/

@[simp] theorem framesOf_nil : framesOf ([] : List (Submission F)) = [] := rfl

@[simp] theorem framesOf_append (l l' : List (Submission F)) :
    framesOf (l ++ l') = framesOf l ++ framesOf l' :=
  flatMap_append

theorem mem_framesOf {subs : List (Submission F)} (hs : s ∈ subs) (hf : f ∈ s.frames) :
    f ∈ framesOf subs :=
  mem_flatMap.mpr ⟨s, hs, hf⟩

theorem stream_eq (w : CommitLog F) : w.stream = w.log ++ framesOf w.queue := by
  unfold stream log pending
  rw [framesOf_append, append_assoc]

theorem mem_failedFrames_of_mem_garbage {picks : List Nat} (h : f ∈ w.garbage picks) :
    f ∈ w.failedFrames := by
  obtain ⟨i, _, hi⟩ := mem_filterMap.mp h
  exact mem_of_getElem? hi

theorem failedFrames_of_settle {batch : List (Submission F)} (h : w'.settled = w.settle batch ok) :
    w'.failedFrames = if ok then w.failedFrames else framesOf batch ++ w.failedFrames := by
  unfold failedFrames
  rw [h, settle, filter_append, map_append, framesOf_append]
  cases ok with
  | true =>
    have : (batch.map (·, true)).filter (fun e => !e.2) = [] := by simp
    simp [this]
  | false =>
    have : (batch.map (·, false)).filter (fun e => !e.2) = batch.map (·, false) := by simp
    rw [this, map_map]
    simp [Function.comp_def]

/-! ## Well-formedness -/

/-- Every submission is settled at most once, and a successful one is in the log. -/
structure WF (w : CommitLog F) : Prop where
  synced_le : w.synced ≤ w.committed.length
  nodup : (w.submissions.map (·.id)).Nodup
  fresh : ∀ s ∈ w.submissions, s.id < w.nextId
  committed : ∀ e ∈ w.settled, e.2 = true → ∀ f ∈ e.1.frames, f ∈ w.committed
  durable : ∀ e ∈ w.settled, e.2 = true → e.1.durable = true →
    ∀ f ∈ e.1.frames, f ∈ w.committed.take w.synced

namespace WF

theorem reopen (frames : List F) : (CommitLog.reopen frames).WF where
  synced_le := Nat.le_refl _
  nodup := nodup_nil
  fresh _ h := by cases h
  committed _ h := by cases h
  durable _ h := by cases h

theorem submit {w : CommitLog F} (h : w.WF) (frames : List F) (durable : Bool) :
    (w.submit frames durable).WF := by
  have hperm : (w.submit frames durable).submissions.Perm
      (⟨w.nextId, frames, durable⟩ :: w.submissions) := by
    unfold CommitLog.submit submissions pending
    simp only [← append_assoc]
    rw [append_assoc]
    exact perm_middle
  refine { h with nodup := ?_, fresh := ?_ }
  · rw [(hperm.map _).nodup_iff, map_cons, nodup_cons]
    refine ⟨fun hmem => ?_, h.nodup⟩
    obtain ⟨s, hs, hid⟩ := mem_map.mp hmem
    exact absurd hid (Nat.ne_of_lt (h.fresh s hs))
  · intro s hs
    rcases mem_cons.mp (hperm.mem_iff.mp hs) with rfl | hmem
    · exact Nat.lt_succ_self _
    · exact Nat.lt_succ_of_lt (h.fresh s hmem)

end WF

/-- Actions move submissions from pending to settled and never lose or invent one. -/
theorem perm_submissions (h : Effect w w' a) :
    w'.submissions.Perm w.submissions := by
  have hsettle : ∀ (batch rest : List (Submission F)) (ok : Bool),
      w.pending = batch ++ rest → w'.pending = rest → w'.settled = w.settle batch ok →
      w'.submissions.Perm w.submissions := by
    intro batch rest ok hp hp' hd
    unfold submissions
    rw [hp, hp', hd, settle, map_append, map_map]
    have hid : batch.map (Prod.fst ∘ fun s => (s, ok)) = batch := by simp [Function.comp_def]
    rw [hid, ← append_assoc]
    exact List.Perm.append_right _ perm_append_comm
  cases h with
  | idle k hc hs hp hd | leave picks sync hp hc hd => rw [submissions, submissions, hp, hd]
  | commit batch rest hp hp' hc hd hw' hs => exact hsettle batch rest true hp hp' hd
  | fail a batch rest hp hp' hc hd hs ha' => exact hsettle batch rest false hp hp' hd

/-- The synced part only grows. -/
theorem mem_synced_of_effect (hw : w.synced ≤ w.committed.length) (h : Effect w w' a)
    (hf : f ∈ w.committed.take w.synced) :
    f ∈ w'.committed.take w'.synced := by
  have grow : ∀ l : List F, w'.committed = w.committed ++ l →
      (w'.synced = w.synced ∨ w'.synced = w'.committed.length) →
      f ∈ w'.committed.take w'.synced := by
    intro l hc hs
    rcases hs with hs | hs
    · rw [hc, hs, take_append_of_le_length hw]
      exact hf
    · rw [hs, take_length, hc]
      exact mem_append_left _ (mem_of_mem_take hf)
  cases h with
  | idle k hc hs | fail a batch rest hp hp' hc hd hs => rw [hc, hs]; exact hf
  | commit batch rest hp hp' hc hd hw' hs =>
    refine grow _ hc ?_
    split at hs
    · exact Or.inr hs
    · exact Or.inl hs
  | leave picks sync hp hc hd hs => exact grow _ hc hs

/-- **Every action keeps the log well-formed.** -/
theorem WF.step (hw : w.WF) (ha : w.step a = some w') :
    w'.WF := by
  obtain ⟨he, hid⟩ := effect_of_step ha
  have hperm := perm_submissions he
  have hnodup : (w'.submissions.map (·.id)).Nodup := (hperm.map _).nodup_iff.mpr hw.nodup
  have hfresh : ∀ s ∈ w'.submissions, s.id < w'.nextId := by
    intro s hs
    rw [hid]
    exact hw.fresh s (hperm.mem_iff.mp hs)
  have hsync : ∀ e ∈ w.settled, e.2 = true → e.1.durable = true →
      ∀ f ∈ e.1.frames, f ∈ w'.committed.take w'.synced := fun e h₁ h₂ h₃ f h₄ =>
    mem_synced_of_effect hw.synced_le he (hw.durable e h₁ h₂ h₃ f h₄)
  cases he with
  | idle k hc hs hp hd =>
    exact ⟨by rw [hc, hs]; exact hw.synced_le, hnodup, hfresh,
      by rw [hd, hc]; exact hw.committed, by rw [hd]; exact hsync⟩
  | commit batch rest hp hp' hc hd hw' hs =>
    have hmem : ∀ f ∈ w.committed, f ∈ w'.committed := fun f hf => by
      rw [hc]
      exact mem_append_left _ hf
    have hnew : ∀ s ∈ batch, ∀ f ∈ s.frames, f ∈ w'.committed := fun s hb f hf => by
      rw [hc]
      exact mem_append_right _ (mem_framesOf hb hf)
    refine ⟨?_, hnodup, hfresh, ?_, ?_⟩
    · rw [hs]
      split
      · exact Nat.le_refl _
      · rw [hc, length_append]
        exact Nat.le_add_right_of_le hw.synced_le
    · intro e he hok f hf
      rw [hd] at he
      rcases mem_append.mp he with hb | hold
      · obtain ⟨s, hs', rfl⟩ := mem_map.mp hb
        exact hnew s hs' f hf
      · exact hmem f (hw.committed e hold hok f hf)
    · intro e he hok hdur f hf
      rw [hd] at he
      rcases mem_append.mp he with hb | hold
      · -- a durable submission makes the whole batch synced
        obtain ⟨s, hs', rfl⟩ := mem_map.mp hb
        rw [hs, if_pos (any_eq_true.mpr ⟨s, hs', hdur⟩), take_length]
        exact hnew s hs' f hf
      · exact hsync e hold hok hdur f hf
  | fail a batch rest hp hp' hc hd hs ha' =>
    have hold : ∀ e ∈ w'.settled, e.2 = true → e ∈ w.settled := by
      intro e he hok
      rw [hd] at he
      rcases mem_append.mp he with hb | hold
      · obtain ⟨s, _, rfl⟩ := mem_map.mp hb
        cases hok
      · exact hold
    exact ⟨by rw [hc, hs]; exact hw.synced_le, hnodup, hfresh,
      fun e he hok => by rw [hc]; exact hw.committed e (hold e he hok) hok,
      fun e he hok => hsync e (hold e he hok) hok⟩
  | leave picks sync hp hc hd hs =>
    refine ⟨?_, hnodup, hfresh, ?_, by rw [hd]; exact hsync⟩
    · rcases hs with hs | hs
      · rw [hs, hc, length_append]
        exact Nat.le_add_right_of_le hw.synced_le
      · exact Nat.le_of_eq hs
    · intro e he hok f hf
      rw [hd] at he
      rw [hc]
      exact mem_append_left _ (hw.committed e he hok f hf)

/-- A client that reads the result of its own submission reads the recorded one. -/
theorem WF.settled_of_outcome (hw : w.WF) (hs : s ∈ w.submissions) (ho : w.outcome s.id = some ok) :
    (s, ok) ∈ w.settled := by
  obtain ⟨e, hfind, rfl⟩ := Option.map_eq_some_iff.mp ho
  have hid : e.1.id = s.id := by simpa using find?_some hfind
  have hmem := mem_of_find?_eq_some hfind
  have he : e.1 ∈ w.submissions := mem_append_right _ (mem_map_of_mem hmem)
  have heq : e.1 = s := inj_on_of_nodup_map hw.nodup he hs hid
  rw [← heq]
  exact hmem

/-- A settled submission is no longer pending. -/
theorem WF.ne_of_outcome (hw : w.WF) {id : Nat} (ho : w.outcome id = some ok) (hs : s ∈ w.pending) :
    s.id ≠ id := by
  obtain ⟨e, hfind, -⟩ := Option.map_eq_some_iff.mp ho
  have hid : e.1.id = id := by simpa using find?_some hfind
  have hmem := mem_of_find?_eq_some hfind
  have hnodup := hw.nodup
  unfold submissions at hnodup
  rw [map_append, map_map] at hnodup
  have hdisj := (nodup_append.mp hnodup).2.2
  rw [← hid]
  exact hdisj s.id (mem_map_of_mem hs) e.1.id (mem_map_of_mem (f := (·.id) ∘ Prod.fst) hmem)

theorem mem_submissions_submit (h : s ∈ w.submissions) (frames : List F) (durable : Bool) :
    s ∈ (w.submit frames durable).submissions := by
  unfold submissions pending at h ⊢
  simp only [submit, mem_append] at h ⊢
  tauto

theorem submitted_mem_submissions (w : CommitLog F) (frames : List F) (durable : Bool) :
    (⟨w.nextId, frames, durable⟩ : Submission F) ∈ (w.submit frames durable).submissions := by
  simp [submissions, pending, submit]

/-- `P` holds of every frame the log has ever seen. -/
structure AllFrames (w : CommitLog F) (P : F → Prop) : Prop where
  committed : ∀ f ∈ w.committed, P f
  submitted : ∀ s ∈ w.submissions, ∀ f ∈ s.frames, P f

namespace AllFrames

variable {P : F → Prop} {w w' : CommitLog F}

theorem reopen {frames : List F} (h : ∀ f ∈ frames, P f) :
    (CommitLog.reopen frames).AllFrames P :=
  ⟨h, nofun⟩

theorem submit (h : w.AllFrames P) {frames : List F} (hf : ∀ f ∈ frames, P f)
    (durable : Bool) : (w.submit frames durable).AllFrames P := by
  refine ⟨h.committed, fun s hs => ?_⟩
  unfold submissions pending at hs
  simp only [CommitLog.submit, mem_append, mem_singleton] at hs
  rcases hs with (hs | hs | hs) | hs
  · exact h.submitted s (mem_append_left _ (mem_append_left _ hs))
  · exact h.submitted s (mem_append_left _ (mem_append_right _ hs))
  · subst hs
    exact hf
  · exact h.submitted s (mem_append_right _ hs)

theorem failedFrames (h : w.AllFrames P) : ∀ f ∈ w.failedFrames, P f := by
  intro f hf
  obtain ⟨s, hs, hfs⟩ := mem_flatMap.mp hf
  obtain ⟨e, he, rfl⟩ := mem_map.mp hs
  have hmem := (mem_filter.mp he).1
  exact h.submitted e.1 (mem_append_right _ (mem_map_of_mem hmem)) f hfs

theorem pending (h : w.AllFrames P) : ∀ f ∈ framesOf w.pending, P f := by
  intro f hf
  obtain ⟨s, hs, hfs⟩ := mem_flatMap.mp hf
  exact h.submitted s (mem_append_left _ hs) f hfs

theorem step (h : w.AllFrames P) {a : LogAction} (ha : w.step a = some w') :
    w'.AllFrames P := by
  have he := (effect_of_step ha).1
  refine ⟨fun f hf => ?_, fun s hs =>
    h.submitted s ((perm_submissions he).mem_iff.mp hs)⟩
  cases he with
  | idle k hc | fail a batch rest hp hp' hc => exact h.committed f (hc ▸ hf)
  | commit batch rest hp hp' hc hd hw' hs =>
    rw [hc] at hf
    rcases mem_append.mp hf with hf | hf
    · exact h.committed f hf
    · exact h.pending f (by rw [hp, framesOf_append]; exact mem_append_left _ hf)
  | leave picks sync hp hc hd hs =>
    rw [hc] at hf
    rcases mem_append.mp hf with hf | hf
    · exact h.committed f hf
    · exact h.failedFrames f (mem_failedFrames_of_mem_garbage hf)

theorem survivors (h : w.AllFrames P) (keep : Nat) (picks : List Nat) :
    ∀ f ∈ w.survivors keep picks, P f := by
  intro f hf
  rcases mem_append.mp hf with hf | hf
  · rcases mem_append.mp (mem_of_mem_take hf) with hf | hf
    · exact h.committed f hf
    · refine h.pending f ?_
      unfold CommitLog.pending
      rw [framesOf_append]
      exact mem_append_left _ hf
  · exact h.failedFrames f (mem_failedFrames_of_mem_garbage hf)

end AllFrames

/-! ## Crashes -/

/-- The synced part survives every crash, as a prefix. -/
theorem synced_prefix_survivors (hw : w.synced ≤ w.committed.length) {keep : Nat}
    (hk : w.synced ≤ keep) (picks : List Nat) :
    w.committed.take w.synced <+: w.survivors keep picks := by
  have hlog : w.committed.take w.synced = w.log.take w.synced := by
    unfold log
    rw [take_append_of_le_length hw]
  rw [hlog]
  exact (take_prefix_take_left hk).trans (prefix_append _ _)

end CommitLog

end Topics.Lib
