import Mathlib.Algebra.BigOperators.Group.List.Basic
import Mathlib.Tactic.Ring
import Topics.Lib.Exec

/-!
# The checkpoint position of a WAL group

`WriterTask::commit_batch` and `WalWriter::position` (`storage/wal.rs`), with the part of
`capture` (`engine/snapshot.rs`) that reads the position.  Each group has its own writer, files
and published position; the groups do not interact.

The writer publishes `active_idx` and `active_len` after the buffered write and before the
fsync, and rewinds the length when the fsync fails.  `capture` loads them one after the other,
behind a barrier that was fsynced before.
-/

namespace Topics

open Lib Function Option List

/-- A caller's batch of frames: their encoded sizes, whether it waits for an fsync, and whether
it is the `CheckpointMark` of `checkpoint_barrier_all`. -/
structure SizedSubmission where
  sizes : List Nat
  durable : Bool
  mark : Bool := false
  deriving DecidableEq, Repr

def batchBytes (batch : List SizedSubmission) : Nat := (batch.map fun sub => sub.sizes.sum).sum

/-- The offsets at which frames of the given sizes start. -/
def frameStarts : Nat → List Nat → List Nat
  | _, [] => []
  | off, size :: sizes => off :: frameStarts (off + size) sizes

/-- The offsets of the frames of a batch that are acknowledged as fsynced. -/
def durableStarts : Nat → List SizedSubmission → List Nat
  | _, [] => []
  | off, sub :: batch =>
    (if sub.durable then frameStarts off sub.sizes else []) ++
      durableStarts (off + sub.sizes.sum) batch

/-- Where `commit_batch` is. -/
inductive WriterPhase where
  | idle
  | sealing (batch : List SizedSubmission)
  | creating (batch : List SizedSubmission)
  | storingIdx (batch : List SizedSubmission)
  | storingLen (batch : List SizedSubmission)
  | writing (batch : List SizedSubmission)
  | written (batch : List SizedSubmission) (lenBefore : Nat)
  | published (batch : List SizedSubmission) (lenBefore : Nat)
  | committed (batch : List SizedSubmission) (lenBefore : Nat)
  deriving DecidableEq, Repr

/-- Where `capture` is: waiting for its mark, behind the barrier, between the two loads of
`position`, or done with the recorded position. -/
inductive CapturePhase where
  | idle
  | barrier
  | ready
  | loaded (idx : Nat)
  | recorded (idx off : Nat)
  deriving DecidableEq, Repr

/-- One WAL group.  `len` is the append position of each file, `synced` how much of it has been
fsynced. -/
structure WalGroup where
  capacity : Nat
  idx : Nat
  len : Nat → Nat
  synced : Nat → Nat
  activeIdx : Nat
  activeLen : Nat
  readOnly : Bool
  phase : WriterPhase
  capture : CapturePhase
  /-- History: where the frames start that were acknowledged as fsynced after the position was
  recorded. -/
  ackedAfter : List (Nat × Nat)

inductive WalGroupAction where
  | take (batch : List SizedSubmission)
  /-- The writer's next step; `ok` is the outcome of the file operation in it, if there is one. -/
  | next (ok : Bool)
  | mark
  | loadIdx
  | loadLen
  | crash

namespace WalGroup

def init (capacity : Nat) : WalGroup where
  capacity := capacity
  idx := 1
  len _ := 0
  synced _ := 0
  activeIdx := 1
  activeLen := 0
  readOnly := false
  phase := .idle
  capture := .idle
  ackedAfter := []

/-- What `capture` learns from the tokens of a batch: a failed mark makes it give up. -/
def hear (c : CapturePhase) (batch : List SizedSubmission) (ok : Bool) : CapturePhase :=
  match c with
  | .barrier => if batch.any (·.mark) then (if ok then .ready else .idle) else .barrier
  | c => c

def fail (s : WalGroup) (batch : List SizedSubmission) : WalGroup :=
  { s with phase := .idle, capture := hear s.capture batch false }

def signal (s : WalGroup) (batch : List SizedSubmission) (lenBefore : Nat) : WalGroup :=
  { s with
    phase := .idle
    capture := hear s.capture batch true
    ackedAfter := match s.capture with
      | .recorded .. => s.ackedAfter ++ (durableStarts lenBefore batch).map fun off => (s.idx, off)
      | _ => s.ackedAfter }

/-- One step of `commit_batch`. -/
def advance (s : WalGroup) (ok : Bool) : Option WalGroup :=
  match s.phase with
  | .idle => none
  | .sealing batch =>
    -- the outcome of this fsync is ignored
    some { s with
      synced := if ok then update s.synced s.idx (s.len s.idx) else s.synced
      phase := .creating batch }
  | .creating batch =>
    if ok then
      some { s with
        idx := s.idx + 1
        len := update s.len (s.idx + 1) 0
        synced := update s.synced (s.idx + 1) 0
        phase := .storingIdx batch }
    else some (fail { s with readOnly := true } batch)
  | .storingIdx batch => some { s with activeIdx := s.idx, phase := .storingLen batch }
  | .storingLen batch => some { s with activeLen := 0, phase := .writing batch }
  | .writing batch =>
    if ok then
      some { s with
        len := update s.len s.idx (s.len s.idx + batchBytes batch)
        phase := .written batch (s.len s.idx) }
    else some (fail { s with activeLen := s.len s.idx } batch)
  | .written batch lenBefore =>
    some { s with activeLen := s.len s.idx, phase := .published batch lenBefore }
  | .published batch lenBefore =>
    if batch.any (·.durable) then
      if ok then
        some { s with
          synced := update s.synced s.idx (s.len s.idx)
          phase := .committed batch lenBefore }
      else
        some (fail { s with
          len := update s.len s.idx lenBefore
          activeLen := lenBefore } batch)
    else some { s with phase := .committed batch lenBefore }
  | .committed batch lenBefore => some (s.signal batch lenBefore)

def step (s : WalGroup) : WalGroupAction → Option WalGroup
  | .take batch =>
    if s.phase = .idle ∧ batch ≠ [] ∧ (batch.any (·.mark) → s.capture = .barrier) then
      if s.readOnly then some (s.fail batch)
      else if s.len s.idx + batchBytes batch > s.capacity then
        some { s with phase := .sealing batch }
      else some { s with phase := .writing batch }
    else none
  | .next ok => s.advance ok
  | .mark => if s.capture = .idle then some { s with capture := .barrier } else none
  | .loadIdx => if s.capture = .ready then some { s with capture := .loaded s.activeIdx } else none
  | .loadLen =>
    match s.capture with
    | .loaded idx => some { s with capture := .recorded idx s.activeLen }
    | _ => none
  | .crash =>
    -- every byte that was not fsynced is gone, and recovery resumes at the valid tail
    some { s with
      len := s.synced
      activeIdx := s.idx
      activeLen := s.synced s.idx
      readOnly := false
      phase := .idle
      capture := match s.capture with
        | .recorded idx off => .recorded idx off
        | _ => .idle }

/-! ## Positions -/

/-- `p` is at or before `q`. -/
def Before (p q : Nat × Nat) : Prop := p.1 < q.1 ∨ p.1 = q.1 ∧ p.2 ≤ q.2

/-- Everything in front of the position has been fsynced. -/
def Fsynced (s : WalGroup) (p : Nat × Nat) : Prop :=
  (∀ j < p.1, s.synced j = s.len j) ∧ p.2 ≤ s.synced p.1

/-- Where the batch in hand, or the next one, starts. -/
def base (s : WalGroup) : Nat :=
  match s.phase with
  | .written _ lenBefore => lenBefore
  | .published _ lenBefore => lenBefore
  | .committed _ lenBefore => lenBefore
  | _ => s.len s.idx

theorem Before.trans {p q r : Nat × Nat} (h : Before p q) (h' : Before q r) : Before p r := by
  unfold Before at *
  omega

variable {off start i : Nat} {batch : List SizedSubmission} {c : CapturePhase} {ok : Bool}
  {s s' : WalGroup} {q : Nat × Nat}

theorem le_of_mem_frameStarts {sizes : List Nat} (h : start ∈ frameStarts off sizes) :
    off ≤ start := by
  induction sizes generalizing off with
  | nil => cases h
  | cons size sizes ih =>
    rcases mem_cons.mp h with rfl | h
    · exact le_rfl
    · exact (Nat.le_add_right _ _).trans (ih h)

theorem le_of_mem_durableStarts (h : start ∈ durableStarts off batch) : off ≤ start := by
  induction batch generalizing off with
  | nil => cases h
  | cons sub batch ih =>
    rcases mem_append.mp h with h | h
    · split at h
      · exact le_of_mem_frameStarts h
      · cases h
    · exact (Nat.le_add_right _ _).trans (ih h)

/-! ## The invariant -/

/-- What the published position is worth in each phase of `commit_batch`. -/
def PhaseOk (s : WalGroup) : Prop :=
  match s.phase with
  | .storingIdx _ => s.len s.idx = 0
  | .storingLen _ => s.activeIdx = s.idx ∧ s.len s.idx = 0
  | .written _ lenBefore =>
    s.activeIdx = s.idx ∧ s.synced s.idx ≤ lenBefore ∧ lenBefore ≤ s.len s.idx
  | .published _ lenBefore =>
    s.activeIdx = s.idx ∧ s.activeLen = s.len s.idx ∧ s.synced s.idx ≤ lenBefore ∧
      lenBefore ≤ s.len s.idx
  | .committed _ lenBefore =>
    s.activeIdx = s.idx ∧ s.activeLen = s.len s.idx ∧ lenBefore ≤ s.len s.idx
  | _ => s.activeIdx = s.idx ∧ s.activeLen = s.len s.idx

structure Covers (s : WalGroup) (p : Nat × Nat) : Prop where
  fsynced : ∃ q, s.Fsynced q ∧ Before p q ∧ q.1 ≤ s.idx
  ahead : Before p (s.idx, s.base)
  acked : ∀ a ∈ s.ackedAfter, Before p a

/-- What links the writer, its files and `capture`. -/
structure Inv (s : WalGroup) : Prop where
  synced_le : ∀ j, s.synced j ≤ s.len j
  active_le : s.activeIdx ≤ s.idx
  phase : s.PhaseOk
  loaded : ∀ i, s.capture = .loaded i → i ≤ s.idx
  fresh : (∀ i o, s.capture ≠ .recorded i o) → s.ackedAfter = []
  recorded : ∀ i o, s.capture = .recorded i o → s.Covers (i, o)

theorem hear_of_recorded {i o : Nat} :
    hear c batch ok = .recorded i o ↔ c = .recorded i o := by
  cases c with
  | barrier => simp only [hear]; split <;> [split <;> simp; simp]
  | _ => exact Iff.rfl

theorem hear_of_loaded :
    hear c batch ok = .loaded i ↔ c = .loaded i := by
  cases c with
  | barrier => simp only [hear]; split <;> [split <;> simp; simp]
  | _ => exact Iff.rfl

/-- What a step of the writer leaves of the positions in front of it. -/
structure Moves (s s' : WalGroup) : Prop where
  idx_le : s.idx ≤ s'.idx
  fsynced : ∀ q, q.1 ≤ s.idx → s.Fsynced q → s'.Fsynced q
  ahead : Before (s.idx, s.base) (s'.idx, s'.base)
  loaded : ∀ i, s'.capture = .loaded i → s.capture = .loaded i
  recorded : ∀ i o, s'.capture = .recorded i o ↔ s.capture = .recorded i o
  acked : s'.ackedAfter = s.ackedAfter

theorem Inv.moves (h : s.Inv) (hm : Moves s s') (hsynced : ∀ j, s'.synced j ≤ s'.len j)
    (hactive : s'.activeIdx ≤ s'.idx) (hphase : s'.PhaseOk) : s'.Inv where
  synced_le := hsynced
  active_le := hactive
  phase := hphase
  loaded i hi := Nat.le_trans (h.loaded i (hm.loaded i hi)) hm.idx_le
  fresh hno := by
    rw [hm.acked]
    exact h.fresh fun i o hr => hno i o ((hm.recorded i o).mpr hr)
  recorded i o hr := by
    have hold := h.recorded i o ((hm.recorded i o).mp hr)
    obtain ⟨q, hq, hbefore, hle⟩ := hold.fsynced
    refine ⟨⟨q, hm.fsynced q hle hq, hbefore, hle.trans hm.idx_le⟩,
      hold.ahead.trans hm.ahead, ?_⟩
    rw [hm.acked]
    exact hold.acked

theorem Fsynced.of_same (h : s.Fsynced q)
    (hlow : ∀ j < q.1, s'.synced j = s.synced j ∧ s'.len j = s.len j)
    (hq : s.synced q.1 ≤ s'.synced q.1) : s'.Fsynced q := by
  refine ⟨fun j hj => ?_, h.2.trans hq⟩
  rw [(hlow j hj).1, (hlow j hj).2]
  exact h.1 j hj

theorem Fsynced.of_active (h : s.Fsynced q) (hle : q.1 ≤ s.idx)
    (hother : ∀ j, j ≠ s.idx → s'.synced j = s.synced j ∧ s'.len j = s.len j)
    (hactive : s.synced s.idx ≤ s'.synced s.idx) : s'.Fsynced q := by
  refine h.of_same (fun j hj => hother j (by omega)) ?_
  by_cases hq : q.1 = s.idx
  · rw [hq]
    exact hactive
  · exact Nat.le_of_eq (hother q.1 hq).1.symm

theorem Inv.sync (h : s.Inv) (hidx : s'.idx = s.idx) (hlen : s'.len = s.len)
    (hsynced : s'.synced = update s.synced s.idx (s.len s.idx))
    (hbase : s'.base = s.base) (hcapture : s'.capture = s.capture)
    (hacked : s'.ackedAfter = s.ackedAfter) (hactive : s'.activeIdx = s.activeIdx)
    (hphase : s'.PhaseOk) : s'.Inv := by
  refine h.moves ⟨hidx.symm.le, fun q hle hq => ?_, ?_, ?_, ?_, hacked⟩ (fun j => ?_) ?_ hphase
  · refine hq.of_active hle (fun j hj => ?_) ?_
    · rw [hsynced, hlen, update_of_ne hj]
      exact ⟨rfl, rfl⟩
    · rw [hsynced, update_self]
      exact h.synced_le _
  · rw [hidx, hbase]
    exact Or.inr ⟨rfl, le_rfl⟩
  · rw [hcapture]
    exact fun _ hi => hi
  · rw [hcapture]
    exact fun _ _ => Iff.rfl
  · rw [hsynced, hlen]
    by_cases hj : j = s.idx
    · simp only [hj, update_self]
      exact le_rfl
    · rw [update_of_ne hj]
      exact h.synced_le j
  · rw [hactive, hidx]
    exact h.active_le

theorem Inv.still (h : s.Inv) (hidx : s'.idx = s.idx) (hlen : s'.len = s.len)
    (hsynced : s'.synced = s.synced) (hbase : s.base ≤ s'.base)
    (hloaded : ∀ i, s'.capture = .loaded i → s.capture = .loaded i)
    (hrecorded : ∀ i o, s'.capture = .recorded i o ↔ s.capture = .recorded i o)
    (hacked : s'.ackedAfter = s.ackedAfter) (hactive : s'.activeIdx ≤ s.idx) (hphase : s'.PhaseOk) :
    s'.Inv := by
  refine h.moves ⟨hidx.symm.le, fun q hle hq => ?_, ?_, hloaded, hrecorded, hacked⟩
    (fun j => ?_) (by rw [hidx]; exact hactive) hphase
  · exact hq.of_same (fun j _ => by rw [hsynced, hlen]; exact ⟨rfl, rfl⟩)
      (Nat.le_of_eq (by rw [hsynced]))
  · exact Or.inr ⟨hidx.symm, hbase⟩
  · rw [hsynced, hlen]
    exact h.synced_le j

/-- **One step of `commit_batch`** keeps the invariant. -/
theorem Inv.advance (h : s.Inv) (hstep : s.advance ok = some s') :
    s'.Inv := by
  have hphase := h.phase
  unfold WalGroup.advance at hstep
  cases hp : s.phase with
  | idle =>
    rw [hp] at hstep
    cases hstep
  | sealing batch =>
    rw [hp] at hstep
    simp only [PhaseOk, hp] at hphase
    cases hstep
    have hbase : s.base = s.len s.idx := by simp only [base, hp]
    cases ok with
    | true => exact h.sync rfl rfl rfl hbase.symm rfl rfl rfl hphase
    | false =>
      exact h.still rfl rfl rfl hbase.le (fun _ hi => hi) (fun _ _ => Iff.rfl) rfl
        h.active_le hphase
  | creating batch =>
    rw [hp] at hstep
    simp only [PhaseOk, hp] at hphase
    cases ok with
    | true =>
      -- the new file lies behind everything that was fsynced
      cases hstep
      refine h.moves ⟨Nat.le_succ _, fun q hle hq => ?_, Or.inl (Nat.lt_succ_self _),
        fun _ hi => hi, fun _ _ => Iff.rfl, rfl⟩ (fun j => ?_) (Nat.le_succ_of_le h.active_le) ?_
      · refine hq.of_same (fun j hj => ?_) ?_
        · have hne : j ≠ s.idx + 1 := by omega
          exact ⟨update_of_ne hne _ _, update_of_ne hne _ _⟩
        · have hne : q.1 ≠ s.idx + 1 := by omega
          exact Nat.le_of_eq (update_of_ne hne _ _).symm
      · by_cases hj : j = s.idx + 1
        · subst hj
          simp
        · simp only [update_of_ne hj]
          exact h.synced_le j
      · simp [PhaseOk]
    | false =>
      cases hstep
      refine h.still rfl rfl rfl (Nat.le_of_eq ?_) (fun _ hi => hear_of_loaded.mp hi)
        (fun _ _ => hear_of_recorded) rfl h.active_le hphase
      simp only [base, hp]
      rfl
  | storingIdx batch =>
    rw [hp] at hstep
    simp only [PhaseOk, hp] at hphase
    cases hstep
    refine h.still rfl rfl rfl (Nat.le_of_eq ?_) (fun _ hi => hi) (fun _ _ => Iff.rfl) rfl
      le_rfl ⟨rfl, hphase⟩
    simp only [base, hp]
  | storingLen batch =>
    rw [hp] at hstep
    simp only [PhaseOk, hp] at hphase
    cases hstep
    refine h.still rfl rfl rfl (Nat.le_of_eq ?_) (fun _ hi => hi) (fun _ _ => Iff.rfl) rfl
      h.active_le ⟨hphase.1, hphase.2.symm⟩
    simp only [base, hp]
  | writing batch =>
    rw [hp] at hstep
    simp only [PhaseOk, hp] at hphase
    cases ok with
    | true =>
      cases hstep
      have hbase : s.base = s.len s.idx := by simp only [base, hp]
      refine h.moves ⟨le_rfl, fun q hle hq => ?_, Or.inr ⟨rfl, hbase.le⟩,
        fun _ hi => hi, fun _ _ => Iff.rfl, rfl⟩ (fun j => ?_) h.active_le ?_
      · refine hq.of_active hle (fun j hj => ?_) le_rfl
        exact ⟨rfl, update_of_ne hj _ _⟩
      · by_cases hj : j = s.idx
        · subst hj
          simp only [update_self]
          exact (h.synced_le s.idx).trans (Nat.le_add_right _ _)
        · simp only [update_of_ne hj]
          exact h.synced_le j
      · simp only [PhaseOk, update_self]
        exact ⟨hphase.1, h.synced_le s.idx, Nat.le_add_right _ _⟩
    | false =>
      cases hstep
      refine h.still rfl rfl rfl (Nat.le_of_eq ?_) (fun _ hi => hear_of_loaded.mp hi)
        (fun _ _ => hear_of_recorded) rfl h.active_le ⟨hphase.1, rfl⟩
      simp only [base, hp]
      rfl
  | written batch lenBefore =>
    rw [hp] at hstep
    simp only [PhaseOk, hp] at hphase
    cases hstep
    refine h.still rfl rfl rfl (Nat.le_of_eq ?_) (fun _ hi => hi) (fun _ _ => Iff.rfl) rfl
      h.active_le ⟨hphase.1, rfl, hphase.2⟩
    simp only [base, hp]
  | published batch lenBefore =>
    rw [hp] at hstep
    simp only [PhaseOk, hp] at hphase
    have hbase : s.base = lenBefore := by simp only [base, hp]
    simp only at hstep
    split at hstep
    · cases ok with
      | true =>
        cases hstep
        exact h.sync rfl rfl rfl hbase.symm rfl rfl rfl ⟨hphase.1, hphase.2.1, hphase.2.2.2⟩
      | false =>
        -- the tail is rewound to the start of the batch, which is at or above what is fsynced
        cases hstep
        refine h.moves ⟨le_rfl, fun q hle hq => ?_, Or.inr ⟨rfl, ?_⟩,
          fun _ hi => hear_of_loaded.mp hi, fun _ _ => hear_of_recorded, rfl⟩ (fun j => ?_)
          h.active_le ?_
        · refine hq.of_active hle (fun j hj => ?_) le_rfl
          exact ⟨rfl, update_of_ne hj _ _⟩
        · rw [hbase]
          simp [base, fail]
        · by_cases hj : j = s.idx
          · subst hj
            simp only [fail, update_self]
            exact hphase.2.2.1
          · simp only [fail, update_of_ne hj]
            exact h.synced_le j
        · simp only [PhaseOk, fail, update_self]
          exact ⟨hphase.1, trivial⟩
    · cases hstep
      exact h.still rfl rfl rfl hbase.le (fun _ hi => hi) (fun _ _ => Iff.rfl) rfl
        h.active_le ⟨hphase.1, hphase.2.1, hphase.2.2.2⟩
  | committed batch lenBefore =>
    rw [hp] at hstep
    simp only [PhaseOk, hp] at hphase
    cases hstep
    have hbase : s.base = lenBefore := by simp only [base, hp]
    have hle : s.base ≤ (s.signal batch lenBefore).base := by
      rw [hbase]
      exact hphase.2.2
    refine ⟨h.synced_le, h.active_le, ⟨hphase.1, hphase.2.1⟩,
      fun i hi => h.loaded i (hear_of_loaded.mp hi), fun hno => ?_, fun i o hr => ?_⟩
    · have hold : ∀ i o, s.capture ≠ .recorded i o := fun i o hr => hno i o (hear_of_recorded.mpr hr)
      have hacked := h.fresh hold
      simp only [signal]
      cases hc : s.capture with
      | recorded i o => exact absurd hc (hold i o)
      | _ => exact hacked
    · have hc := hear_of_recorded.mp hr
      have hcovers := h.recorded i o hc
      refine ⟨hcovers.fsynced, hcovers.ahead.trans (Or.inr ⟨rfl, hle⟩), fun a ha => ?_⟩
      simp only [signal, hc] at ha
      rcases mem_append.mp ha with ha | ha
      · exact hcovers.acked a ha
      -- a frame of the batch starts at or behind the start of the batch
      obtain ⟨off, hoff, rfl⟩ := mem_map.mp ha
      refine hcovers.ahead.trans (Or.inr ⟨rfl, ?_⟩)
      rw [hbase]
      exact le_of_mem_durableStarts hoff

/-! ## Every run -/

/-- The condition on a step: `active_len` is loaded between two batches, with everything
published fsynced. -/
def Calm (s : WalGroup) : WalGroupAction → Prop
  | .loadLen => s.phase = .idle ∧ ∀ j < s.idx + 1, s.synced j = s.len j
  | _ => True

instance (s : WalGroup) (a : WalGroupAction) : Decidable (s.Calm a) := by
  cases a <;> unfold Calm <;> infer_instance

theorem inv_init (capacity : Nat) : (init capacity).Inv where
  synced_le _ := le_refl 0
  active_le := le_refl 1
  phase := ⟨rfl, rfl⟩
  loaded i hi := by cases hi
  fresh _ := rfl
  recorded i o hr := by cases hr

theorem Inv.take (h : s.Inv) (hstep : s.step (.take batch) = some s') : s'.Inv := by
  obtain ⟨hcond, hstep⟩ := ite_none_right_eq_some.mp hstep
  have hidle := hcond.1
  have hphase := h.phase
  simp only [PhaseOk, hidle] at hphase
  have hbase : s.base = s.len s.idx := by simp only [base, hidle]
  split at hstep
  · cases hstep
    exact h.still rfl rfl rfl hbase.le (fun _ hi => hear_of_loaded.mp hi)
      (fun _ _ => hear_of_recorded) rfl h.active_le hphase
  · split at hstep
    all_goals
      cases hstep
      exact h.still rfl rfl rfl hbase.le (fun _ hi => hi) (fun _ _ => Iff.rfl) rfl
        h.active_le hphase

theorem Inv.loadLen (h : s.Inv) (hcalm : s.Calm .loadLen) (hstep : s.step .loadLen = some s') :
    s'.Inv := by
  simp only [step] at hstep
  split at hstep
  · rename_i idx hc
    cases hstep
    obtain ⟨hidle, hall⟩ := hcalm
    have hphase := h.phase
    simp only [PhaseOk, hidle] at hphase
    have hacked : s.ackedAfter = [] := h.fresh fun i o hr => by rw [hc] at hr; cases hr
    have hbefore : Before (idx, s.activeLen) (s.idx, s.len s.idx) := by
      rw [hphase.2]
      rcases Nat.lt_or_eq_of_le (h.loaded idx hc) with hlt | heq
      · exact Or.inl hlt
      · exact Or.inr ⟨heq, le_rfl⟩
    refine ⟨h.synced_le, h.active_le, h.phase, nofun, ?_, fun i o hr => ?_⟩
    · exact fun hno => absurd rfl (hno idx s.activeLen)
    cases hr
    refine ⟨⟨(s.idx, s.len s.idx), ⟨fun j hj => ?_, ?_⟩, hbefore, le_rfl⟩, ?_, ?_⟩
    · exact hall j (Nat.lt_succ_of_lt hj)
    · exact Nat.le_of_eq (hall s.idx (Nat.lt_succ_self _)).symm
    · simp only [base, hidle]
      exact hbefore
    · intro a ha
      simp only [hacked] at ha
      cases ha
  · cases hstep

theorem Inv.crash (h : s.Inv) (hstep : s.step .crash = some s') : s'.Inv := by
  cases hstep
  refine ⟨fun _ => le_rfl, le_rfl, ⟨rfl, rfl⟩, fun i hi => ?_, fun hno => ?_,
    fun i o hr => ?_⟩
  · simp only at hi
    split at hi <;> cases hi
  · refine h.fresh fun i o hr => hno i o ?_
    simp only [hr]
  have hc : s.capture = .recorded i o := by
    simp only at hr
    split at hr
    · cases hr
      assumption
    · cases hr
  have hcovers := h.recorded i o hc
  obtain ⟨q, hq, hbefore, hle⟩ := hcovers.fsynced
  refine ⟨⟨q, ⟨fun _ _ => rfl, hq.2⟩, hbefore, hle⟩, hbefore.trans ?_, hcovers.acked⟩
  -- what was fsynced is what the recovered writer appends behind
  rcases Nat.lt_or_eq_of_le hle with hlt | heq
  · exact Or.inl hlt
  · refine Or.inr ⟨heq, ?_⟩
    have := hq.2
    rw [heq] at this
    exact this

theorem inv_step {a : WalGroupAction} (h : s.Inv) (hcalm : s.Calm a) (hstep : s.step a = some s') :
    s'.Inv := by
  cases a with
  | take batch => exact h.take hstep
  | next ok => exact h.advance hstep
  | mark =>
    obtain ⟨hc, ⟨⟩⟩ := ite_none_right_eq_some.mp hstep
    have hno : ∀ i o, s.capture ≠ .recorded i o := fun i o hr => by rw [hc] at hr; cases hr
    exact ⟨h.synced_le, h.active_le, h.phase, nofun, fun _ => h.fresh hno,
      nofun⟩
  | loadIdx =>
    obtain ⟨hc, ⟨⟩⟩ := ite_none_right_eq_some.mp hstep
    have hno : ∀ i o, s.capture ≠ .recorded i o := fun i o hr => by rw [hc] at hr; cases hr
    refine ⟨h.synced_le, h.active_le, h.phase, fun i hi => ?_, fun _ => h.fresh hno,
      nofun⟩
    cases hi
    exact h.active_le
  | loadLen => exact h.loadLen hcalm hstep
  | crash => exact h.crash hstep

/-- **A recorded position never outruns durability.**  In every run of the writer, `capture` and
crashes in which `active_len` is only loaded between two batches and with everything published
fsynced, the recorded position is at or before a position up to which everything is fsynced,
and no frame acknowledged as fsynced after the position was recorded starts below it. -/
theorem recorded_le_fsynced {capacity : Nat} {actions : List WalGroupAction} {s : WalGroup}
    (hrun : exec step (init capacity) actions = some s)
    (hcalm : Along step Calm (init capacity) actions) {i o : Nat}
    (hrecorded : s.capture = .recorded i o) :
    (∃ q, s.Fsynced q ∧ Before (i, o) q) ∧ ∀ a ∈ s.ackedAfter, Before (i, o) a := by
  have hinv : s.Inv := exec_invariant_along step (I := Inv) (fun _ _ _ h hc hs => inv_step h hc hs)
    (inv_init capacity) hcalm hrun
  have hcovers := hinv.recorded i o hrecorded
  obtain ⟨q, hq, hbefore, _⟩ := hcovers.fsynced
  exact ⟨⟨q, hq, hbefore⟩, hcovers.acked⟩

/-! ## Runs -/

/-- A batch of one submission that goes through without an error. -/
def commitOk (sub : SizedSubmission) : List WalGroupAction :=
  [.take [sub], .next true, .next true, .next true, .next true]

/-- The barrier of `capture`. -/
def barrier : List WalGroupAction := .mark :: commitOk ⟨[10], true, true⟩

/-- The position is recorded between two batches, and a crash comes later. -/
def calmRun : List WalGroupAction :=
  barrier ++ [.loadIdx, .loadLen] ++ commitOk ⟨[20], false, false⟩ ++ [.crash] ++
    commitOk ⟨[5], true, false⟩

theorem recorded_le_fsynced_calmRun :
    ∃ s, exec step (init 100) calmRun = some s ∧ s.ackedAfter = [(1, 10)] ∧
      (∃ q, s.Fsynced q ∧ Before (1, 10) q) ∧ ∀ a ∈ s.ackedAfter, Before (1, 10) a := by
  have hrun : (exec step (init 100) calmRun).map (fun s => (s.capture, s.ackedAfter)) =
      some (.recorded 1 10, [(1, 10)]) := by decide
  obtain ⟨s, hs, heq⟩ := map_eq_some_iff.mp hrun
  rw [Prod.mk.injEq] at heq
  exact ⟨s, hs, heq.2, recorded_le_fsynced hs (by decide) heq.1⟩

/-- **What breaks without the condition.**  The position is loaded after a batch was published
and before its fsync fails; behind a batch without an fsync that a crash then loses; and between
the two stores of a rotation.  Each time a frame that is acknowledged as fsynced afterwards
starts below the recorded position. -/
theorem recorded_beyond_fsynced :
    (exec step (init 100) (barrier ++ [.take [⟨[20], true, false⟩], .next true, .next true,
        .loadIdx, .loadLen, .next false] ++ commitOk ⟨[5], true, false⟩)).map
      (fun s => (s.capture, s.synced 1, s.ackedAfter)) = some (.recorded 1 30, 15, [(1, 10)]) ∧
    (exec step (init 100) (barrier ++ commitOk ⟨[20], false, false⟩ ++ [.loadIdx, .loadLen, .crash] ++
        commitOk ⟨[5], true, false⟩)).map
      (fun s => (s.capture, s.synced 1, s.ackedAfter)) = some (.recorded 1 30, 15, [(1, 10)]) ∧
    (exec step (init 20) (barrier ++ [.take [⟨[15], true, false⟩], .next true, .next true,
        .next true, .loadIdx, .loadLen, .next true, .next true, .next true, .next true,
        .next true])).map
      (fun s => (s.capture, s.synced 2, s.ackedAfter)) = some (.recorded 2 10, 15, [(2, 0)]) := by
  refine ⟨by decide, by decide, by decide⟩

end WalGroup

end Topics
