import Topics.Lib.Gates
import Topics.TopicSteps

/-!
# Writes with idempotency keys

`Engine::write` on one topic, in any interleaving.  A keyed write holds the gate of its key from the
look at the dedupe map to the entry it leaves there (`dedupe_gate_for`, `release_dedupe_gate`); a
write that finds an entry answers with the seqs of the write that left it.  Every exit of the function
is a step of its own: the error paths drop the guard and the reference, and leave the registry alone.
-/

namespace Topics

open Lib List Option Function TopicState Outcome FloorState

/-! ## The calls -/

/-- `MAX_BATCH_RECORDS`. -/
def maxBatchRecords : Nat := 10000

/-- `MAX_IDEMPOTENCY_KEY_LEN`. -/
def maxIdempotencyKeyLen : Nat := 256

structure DedupeEntry where
  seqs : List Nat
  headSeq : Nat
  createdMs : Int

/-- A write request, with the records `build_stored` makes of it. -/
structure KeyedCall where
  key : Option String
  stored : List StoredRecord
  now : Int
  fresh : ∀ r ∈ stored, r.deleted = false

inductive WriteReply where
  | err
  | ok (seqs : List Nat) (headSeq : Nat) (deduped : Bool)
  deriving DecidableEq, Repr

/-- An answer that is not a copy of another one. -/
def WriteReply.first : WriteReply → Bool
  | .ok _ _ deduped => !deduped
  | .err => false

def WriteReply.seqs : WriteReply → Option (List Nat)
  | .ok seqs .. => some seqs
  | .err => none

/-- A write in progress: its number among the writes of its thread, and the gate of its key. -/
structure Keyed where
  id : Nat × Nat
  call : KeyedCall
  gate : Nat

/-- History: a published batch. -/
structure Batch where
  id : Nat × Nat
  key : Option String
  seqs : List Nat
  records : List StoredRecord

/-- History: an answer. -/
structure Answer where
  id : Nat × Nat
  key : Option String
  reply : WriteReply

structure KeyedState where
  floor : FloorState
  gates : Gates String
  dedupe : String → Option DedupeEntry
  /-- History: how many writes each thread has started. -/
  calls : Nat → Nat
  published : List Batch
  answers : List Answer

/-- The steps of a write.  `done` are the seqs and the head of the batch, once it is published. -/
inductive KeyedInstr where
  | validate (c : KeyedCall)
  | gateFor (w : Keyed) (key : String)
  | lockGate (w : Keyed)
  | checkDedupe (w : Keyed)
  | retain (w : Keyed) (done : Option (List Nat × Nat)) (i : FloorInstr)
  | admission (w : Keyed)
  | reserveQuota (w : Keyed)
  | lock (w : Keyed)
  | stage (w : Keyed)
  | enqueue (w : Keyed) (g : StagedAppend)
  | commit (w : Keyed) (g : StagedAppend) (ticket : Nat)
  | publish (w : Keyed) (g : StagedAppend)
  | record (w : Keyed) (seqs : List Nat) (head : Nat)
  | unlockGate (w : Keyed) (r : WriteReply)
  | releaseGate (w : Keyed) (r : WriteReply)
  | finish (w : Keyed) (r : WriteReply)

def KeyedCall.valid (c : KeyedCall) : Bool :=
  !c.stored.isEmpty && c.stored.length ≤ maxBatchRecords &&
    c.key.all fun k => k.utf8ByteSize ≤ maxIdempotencyKeyLen

def KeyedCall.body (c : KeyedCall) : List KeyedInstr := [.validate c]

/-- A watermark has to be synced before the batch may be published. -/
def TopicState.needsReservation (b : TopicState) (g : StagedAppend) : Bool :=
  b.config.durabilityClass = .disk ∧ ¬ g.publishHead < b.reservedHead

namespace KeyedState

/-- The entries a write at `now` does not prune. -/
def fresh (s : KeyedState) (now : Int) (k : String) : Option DedupeEntry :=
  (s.dedupe k).filter fun e =>
    i64SaturatingSub now e.createdMs ≤ asI64 s.floor.topic.config.idempotencyWindowMs

def leave (w : Keyed) (r : WriteReply) : KeyedInstr :=
  if w.call.key.isSome then .unlockGate w r else .finish w r

/-- The pass before the append, and the one behind it. -/
def pass (w : Keyed) (done : Option (List Nat × Nat)) : KeyedInstr :=
  .retain w done (.readHead w.call.now true)

def afterPass (w : Keyed) : Option (List Nat × Nat) → KeyedInstr
  | none => .admission w
  | some (seqs, head) => .record w seqs head

/-- What a step of a retention pass goes on with. -/
def retainNext (s : KeyedState) (w : Keyed) (done : Option (List Nat × Nat)) :
    Outcome FloorState FloorInstr → Outcome KeyedState KeyedInstr
  | .next f (i :: _) => .next { s with floor := f } [.retain w done i]
  | .next f [] => .next { s with floor := f } [afterPass w done]
  | .stop f => .next { s with floor := f } [leave w .err]

def rollback (s : KeyedState) (w : Keyed) (g : StagedAppend) : Outcome KeyedState KeyedInstr :=
  .next
    { s with floor :=
      { s.floor with topic := s.floor.topic.rollbackStagedBySeqs g, turn := s.floor.turn + 1 } }
    [leave w .err]

def publishBatch (s : KeyedState) (w : Keyed) (g : StagedAppend) : KeyedState :=
  { s with
    floor :=
      { s.floor with
        topic := (s.floor.topic.reserveFor g).publishStagedNoSeal g, turn := s.floor.turn + 1 }
    published := s.published ++ [⟨w.id, w.call.key, g.seqs, w.call.stored⟩] }

/-- One step of thread `t`; `ok` is whether the operation in it succeeds. -/
def sem (s : KeyedState) (t : Nat) (ok : Bool) : KeyedInstr → Option (Outcome KeyedState KeyedInstr)
  | .validate c =>
    let w : Keyed := ⟨(t, s.calls t), c, 0⟩
    some (.next { s with calls := update s.calls t (s.calls t + 1) }
      [if c.valid && ok then
        match c.key with
        | some k => .gateFor w k
        | none => pass w none
      else .finish w .err])
  | .gateFor w key =>
    some (.next { s with gates := (s.gates.gateFor t key).1 }
      [.lockGate { w with gate := (s.gates.gateFor t key).2 }])
  | .lockGate w => (s.gates.lock t w.gate).map fun G => .next { s with gates := G } [.checkDedupe w]
  | .checkDedupe w =>
    some (.next { s with dedupe := s.fresh w.call.now }
      [match w.call.key.bind (s.fresh w.call.now) with
        | some e => .unlockGate w (.ok e.seqs e.headSeq true)
        | none => pass w none])
  | .retain w done i => (FloorState.sem s.floor t ok i).map (s.retainNext w done)
  | .admission w =>
    some (.next s [if s.floor.topic.refuses w.call.stored then leave w .err else .reserveQuota w])
  | .reserveQuota w => some (.next s [if ok then .lock w else leave w .err])
  | .lock w =>
    if s.floor.locked = none then
      some (.next { s with floor := { s.floor with locked := some t } } [.stage w])
    else none
  | .stage w =>
    some (.next
      { s with floor := { s.floor with topic := (s.floor.topic.stageAppend w.call.stored).1 } }
      [.enqueue w (s.floor.topic.stageAppend w.call.stored).2])
  | .enqueue w g =>
    -- an `ephemeral` topic has no log to refuse the batch
    if ok || !s.floor.topic.config.usesPersistentRecordStore then
      some (.next
        { s with floor := { s.floor with locked := none, nextTicket := s.floor.nextTicket + 1 } }
        [.commit w g s.floor.nextTicket])
    else
      some (.next
        { s with floor := { s.floor with topic := s.floor.topic.rollbackStaged g, locked := none } }
        [leave w .err])
  | .commit w g ticket =>
    if s.floor.turn = ticket then
      some (if ok || !s.floor.topic.config.usesPersistentRecordStore then .next s [.publish w g]
        else s.rollback w g)
    else none
  | .publish w g =>
    some (if s.floor.topic.needsReservation g && !ok then s.rollback w g
      else .next (s.publishBatch w g)
        [pass w (some (g.seqs, (s.publishBatch w g).floor.topic.headSeq))])
  | .record w seqs head =>
    some (.next
      { s with dedupe := match w.call.key with
          | some k => update s.dedupe k (some ⟨seqs, head, w.call.now⟩)
          | none => s.dedupe }
      [leave w (.ok seqs head false)])
  | .unlockGate w r =>
    -- an early return forgets the gate without a look at the registry
    some (.next { s with gates := s.gates.unlock w.gate }
      [if r = .err then .finish w r else .releaseGate w r])
  | .releaseGate w r =>
    some (.next
      { s with gates := match w.call.key with
          | some k => s.gates.release k w.gate
          | none => s.gates }
      [.finish w r])
  | .finish w r =>
    some (.next
      { s with gates := s.gates.leave t, answers := s.answers ++ [⟨w.id, w.call.key, r⟩] } [])

abbrev step := Threads.step KeyedCall.body sem

def start (spec : TopicSpec) : Threads KeyedState KeyedInstr :=
  ⟨⟨.init spec, .empty, fun _ => none, fun _ => 0, [], []⟩, fun _ => []⟩

end KeyedState

/-! ## Where a write stands -/

inductive Phase where
  /-- About to ask for the gate. -/
  | entering (key : String)
  | waiting
  | checking
  /-- Behind the look at the dedupe map, and before the publish. -/
  | working
  | published (seqs : List Nat)
  | leaving (r : WriteReply)
  | released (r : WriteReply)
  | done (r : WriteReply)

/-- The write a step belongs to and its phase; `validate` comes before everything. -/
def KeyedInstr.phase : KeyedInstr → Option (Keyed × Phase)
  | .validate _ => none
  | .gateFor w key => some (w, .entering key)
  | .lockGate w => some (w, .waiting)
  | .checkDedupe w => some (w, .checking)
  | .retain w none _ | .admission w | .reserveQuota w | .lock w | .stage w | .enqueue w _
  | .commit w _ _ | .publish w _ => some (w, .working)
  | .retain w (some done) _ => some (w, .published done.1)
  | .record w seqs _ => some (w, .published seqs)
  | .unlockGate w r => some (w, .leaving r)
  | .releaseGate w r => some (w, .released r)
  | .finish w r => some (w, .done r)

def FloorInstr.retains : FloorInstr → Bool
  | .readHead .. | .plan .. | .harden .. | .commit .. | .reclaim _ => true
  | _ => false

/-- The wait for the watermark of the pass behind the publish. -/
def KeyedInstr.hardensLate : KeyedInstr → Bool
  | .retain _ (some _) (.harden ..) => true
  | _ => false

def KeyedInstr.Sound : KeyedInstr → Prop
  | .retain _ _ i => i.retains = true
  | _ => True

namespace KeyedState

/-- The batches of a key are the one in the dedupe map. -/
def Settled (s : KeyedState) (k : String) : Prop :=
  ∀ p ∈ s.published, p.key = some k → ∃ e, s.dedupe k = some e ∧ e.seqs = p.seqs

/-- Thread `t` holds the gate of the write, if it has a key. -/
def HoldsKey (s : KeyedState) (t : Nat) (w : Keyed) : Prop :=
  match w.call.key with
  | some k => s.gates.Holds t k w.gate
  | none => s.gates.Idle t

def Told (s : KeyedState) (id : Nat × Nat) (key : Option String) : WriteReply → Prop
  | .err => ∀ p ∈ s.published, p.id ≠ id
  | .ok seqs _ false => ∃ p ∈ s.published, p.id = id ∧ p.key = key ∧ p.seqs = seqs
  | .ok seqs _ true =>
    (∀ p ∈ s.published, p.id ≠ id) ∧
      ∃ k, key = some k ∧ ∃ p ∈ s.published, p.key = some k ∧ p.seqs = seqs

def At (s : KeyedState) (t : Nat) (w : Keyed) : Phase → Prop
  | .entering key => w.call.key = some key ∧ s.gates.Idle t ∧ ∀ p ∈ s.published, p.id ≠ w.id
  | .waiting =>
    s.gates.Idle t ∧ (∀ p ∈ s.published, p.id ≠ w.id) ∧
      ∃ k, w.call.key = some k ∧ s.gates.Joined t k w.gate
  | .checking =>
    (∀ p ∈ s.published, p.id ≠ w.id) ∧
      ∃ k, w.call.key = some k ∧ s.gates.Holds t k w.gate ∧ s.Settled k
  | .working =>
    s.HoldsKey t w ∧ (∀ p ∈ s.published, p.id ≠ w.id) ∧
      ∀ k, w.call.key = some k → ∀ p ∈ s.published, p.key ≠ some k
  | .published seqs =>
    s.HoldsKey t w ∧ ∃ p ∈ s.published, p.id = w.id ∧ p.key = w.call.key ∧ p.seqs = seqs
  | .leaving r =>
    s.Told w.id w.call.key r ∧ ∃ k, w.call.key = some k ∧ s.gates.Holds t k w.gate ∧ s.Settled k
  | .released r =>
    s.Told w.id w.call.key r ∧ s.gates.Idle t ∧ ∃ k, w.call.key = some k ∧ s.gates.Joined t k w.gate
  | .done r => s.Told w.id w.call.key r ∧ s.gates.Idle t

/-- The write is the last one of its thread, and the only one without an answer. -/
structure Current (s : KeyedState) (t : Nat) (w : Keyed) : Prop where
  thread : w.id.1 = t
  last : w.id.2 + 1 = s.calls t
  open_ : ∀ r ∈ s.answers, r.id ≠ w.id
  before : ∀ n < w.id.2, ∃ r ∈ s.answers, r.id = (t, n)

def Answered (s : KeyedState) (t : Nat) : Prop := ∀ n < s.calls t, ∃ r ∈ s.answers, r.id = (t, n)

def Within (lo : Int) (window : Nat) (now : Int) : Prop := lo ≤ now ∧ now ≤ lo + window

def Stands (lo : Int) (window : Nat) (s : KeyedState) (t : Nat) : List KeyedInstr → Prop
  | [] => s.Answered t ∧ s.gates.Idle t
  | i :: rest => rest = [] ∧
    match i with
    | .validate c => s.Answered t ∧ s.gates.Idle t ∧ Within lo window c.now
    | i => i.Sound ∧
      ∃ w ph, i.phase = some (w, ph) ∧ s.Current t w ∧ Within lo window w.call.now ∧ s.At t w ph

structure Tracks (lo : Int) (window : Nat) (s : KeyedState) : Prop where
  config : s.floor.topic.config.idempotencyWindowMs = window
  gates : s.gates.WellFormed
  once : ∀ k, (s.published.filter (·.key = some k)).length ≤ 1
  settled : ∀ k, ¬ s.gates.Owned k → s.Settled k
  entries : ∀ k e, s.dedupe k = some e →
    Within lo window e.createdMs ∧ ∃ p ∈ s.published, p.key = some k ∧ p.seqs = e.seqs
  told : ∀ r ∈ s.answers, s.Told r.id r.key r.reply
  ids : (s.answers.map (·.id)).Nodup
  answers : ∀ r ∈ s.answers, r.id.2 < s.calls r.id.1
  batches : ∀ p ∈ s.published, p.id.2 < s.calls p.id.1
  own : (s.published.map (·.id)).Nodup

/-! ## What the other threads see -/

/-- What a step of thread `t` may do, as the others see it. -/
structure Effect (t : Nat) (s s' : KeyedState) : Prop where
  gates : Gates.Undisturbed t s.gates s'.gates
  published : s'.published = s.published ∨ ∃ p, s'.published = s.published ++ [p] ∧ p.id.1 = t ∧
    ∀ k, p.key = some k → ∃ g, s.gates.Holds t k g
  settled : ∀ k, (∀ g, ¬ s.gates.Holds t k g) → s.Settled k → s'.Settled k
  answers : s'.answers = s.answers ∨ ∃ r, s'.answers = s.answers ++ [r] ∧ r.id.1 = t
  calls : ∀ u, u ≠ t → s'.calls u = s.calls u

namespace Effect

variable {s s' : KeyedState} {t u : Nat} {w : Keyed}

theorem of_floor (t : Nat) (s : KeyedState) (f : FloorState) : Effect t s { s with floor := f } :=
  ⟨.refl t _, .inl rfl, fun _ _ h => h, .inl rfl, fun _ _ => rfl⟩

section

variable (h : Effect t s s')

include h

theorem published_of_mem {p : Batch} (hp : p ∈ s.published) : p ∈ s'.published := by
  rcases h.published with heq | ⟨q, heq, -⟩ <;> rw [heq]
  · exact hp
  · exact mem_append_left _ hp

theorem answers_of_mem {r : Answer} (hr : r ∈ s.answers) : r ∈ s'.answers := by
  rcases h.answers with heq | ⟨q, heq, -⟩ <;> rw [heq]
  · exact hr
  · exact mem_append_left _ hr

theorem unpublished {id : Nat × Nat} (hid : id.1 ≠ t) (hnone : ∀ p ∈ s.published, p.id ≠ id) :
    ∀ p ∈ s'.published, p.id ≠ id := by
  intro p hp
  rcases h.published with heq | ⟨q, heq, hthread, -⟩
  · exact hnone p (heq ▸ hp)
  · rw [heq, mem_append, mem_singleton] at hp
    rcases hp with hp | rfl
    · exact hnone p hp
    · rintro rfl
      exact hid hthread

theorem told {id : Nat × Nat} (hid : id.1 ≠ t) {key : Option String} {r : WriteReply}
    (htold : s.Told id key r) : s'.Told id key r := by
  cases r with
  | err => exact h.unpublished hid htold
  | ok seqs head deduped =>
    cases deduped with
    | false =>
      obtain ⟨p, hp, hfacts⟩ := htold
      exact ⟨p, h.published_of_mem hp, hfacts⟩
    | true =>
      obtain ⟨hnone, k, hkey, p, hp, hfacts⟩ := htold
      exact ⟨h.unpublished hid hnone, k, hkey, p, h.published_of_mem hp, hfacts⟩

theorem settled_of_holds (hu : u ≠ t) {k : String} {g : Nat} (hholds : s.gates.Holds u k g)
    (hsettled : s.Settled k) : s'.Settled k :=
  h.settled k (fun _ hg => hu (hholds.unique hg)) hsettled

theorem holdsKey (hu : u ≠ t) (hholds : s.HoldsKey u w) : s'.HoldsKey u w := by
  unfold HoldsKey at hholds ⊢
  split
  · rename_i k hkey
    rw [hkey] at hholds
    exact h.gates.holds hu hholds
  · rename_i hkey
    rw [hkey] at hholds
    exact h.gates.idle hu hholds

/-- **The others keep their places.** -/
theorem stands (hu : u ≠ t) (hid : w.id.1 = u) {ph : Phase} (hat : s.At u w ph) : s'.At u w ph := by
  have hne : w.id.1 ≠ t := hid ▸ hu
  cases ph with
  | entering key => exact ⟨hat.1, h.gates.idle hu hat.2.1, h.unpublished hne hat.2.2⟩
  | waiting =>
    obtain ⟨hidle, hnone, k, hkey, hjoined⟩ := hat
    exact ⟨h.gates.idle hu hidle, h.unpublished hne hnone, k, hkey, h.gates.joined u k _ hu hjoined⟩
  | checking =>
    obtain ⟨hnone, k, hkey, hholds, hsettled⟩ := hat
    exact ⟨h.unpublished hne hnone, k, hkey, h.gates.holds hu hholds,
      h.settled_of_holds hu hholds hsettled⟩
  | working =>
    obtain ⟨hholds, hnone, hfirst⟩ := hat
    refine ⟨h.holdsKey hu hholds, h.unpublished hne hnone, fun k hkey p hp => ?_⟩
    rcases h.published with heq | ⟨q, heq, -, hgate⟩
    · exact hfirst k hkey p (heq ▸ hp)
    · rw [heq, mem_append, mem_singleton] at hp
      rcases hp with hp | rfl
      · exact hfirst k hkey p hp
      · -- the gate of the key is held by `u`, so `t` cannot publish under it
        intro hpk
        obtain ⟨g, hg⟩ := hgate k hpk
        rw [HoldsKey, hkey] at hholds
        exact hu (hholds.unique hg)
  | published seqs =>
    obtain ⟨hholds, p, hp, hfacts⟩ := hat
    exact ⟨h.holdsKey hu hholds, p, h.published_of_mem hp, hfacts⟩
  | leaving r =>
    obtain ⟨htold, k, hkey, hholds, hsettled⟩ := hat
    exact ⟨h.told hne htold, k, hkey, h.gates.holds hu hholds, h.settled_of_holds hu hholds hsettled⟩
  | released r =>
    obtain ⟨htold, hidle, k, hkey, hjoined⟩ := hat
    exact ⟨h.told hne htold, h.gates.idle hu hidle, k, hkey, h.gates.joined u k _ hu hjoined⟩
  | done r => exact ⟨h.told hne hat.1, h.gates.idle hu hat.2⟩

theorem current (hu : u ≠ t) (hcurrent : s.Current u w) : s'.Current u w := by
  refine ⟨hcurrent.thread, ?_, fun r hr => ?_, fun n hn => ?_⟩
  · rw [h.calls u hu]
    exact hcurrent.last
  · rcases h.answers with heq | ⟨q, heq, hthread⟩
    · exact hcurrent.open_ r (heq ▸ hr)
    · rw [heq, mem_append, mem_singleton] at hr
      rcases hr with hr | rfl
      · exact hcurrent.open_ r hr
      · intro heq'
        rw [heq', hcurrent.thread] at hthread
        exact hu hthread
  · obtain ⟨r, hr, hid⟩ := hcurrent.before n hn
    exact ⟨r, h.answers_of_mem hr, hid⟩

theorem answered (hu : u ≠ t) (ha : s.Answered u) : s'.Answered u := by
  intro n hn
  rw [h.calls u hu] at hn
  obtain ⟨r, hr, hid⟩ := ha n hn
  exact ⟨r, h.answers_of_mem hr, hid⟩

theorem other {lo : Int} {window : Nat} (hu : u ≠ t) {code : List KeyedInstr}
    (hcode : Stands lo window s u code) : Stands lo window s' u code := by
  cases code with
  | nil => exact ⟨h.answered hu hcode.1, h.gates.idle hu hcode.2⟩
  | cons i rest =>
    refine ⟨hcode.1, ?_⟩
    have hcase := hcode.2
    cases i with
    | validate c => exact ⟨h.answered hu hcase.1, h.gates.idle hu hcase.2.1, hcase.2.2⟩
    | _ =>
      obtain ⟨hsound, w, ph, hphase, hcurrent, hwithin, hat⟩ := hcase
      exact ⟨hsound, w, ph, hphase, h.current hu hcurrent, hwithin, h.stands hu hcurrent.thread hat⟩

end

end Effect

/-! ## One step -/

section Step

variable {lo : Int} {window : Nat} {s : KeyedState} {t : Nat} {w : Keyed} {ph : Phase}

/-- What a step leaves: the invariant, nothing the others would notice, and a next step. -/
structure Advances (lo : Int) (window t : Nat) (s : KeyedState) (o : Outcome KeyedState KeyedInstr) :
    Prop where
  tracks : Tracks lo window o.shared
  effect : Effect t s o.shared
  stands : Stands lo window o.shared t (o.code [])

variable {i : KeyedInstr} {f : FloorState} {r : WriteReply} {ok : Bool}
  {o : Outcome KeyedState KeyedInstr} {G : Gates String} {now : Int}

/-- Write `w` of thread `t` stands in a phase. -/
def Placed (lo : Int) (window : Nat) (s : KeyedState) (t : Nat) (w : Keyed) (ph : Phase) : Prop :=
  s.Current t w ∧ Within lo window w.call.now ∧ s.At t w ph

theorem stands_single (hphase : i.phase = some (w, ph)) (hsound : i.Sound)
    (hp : Placed lo window s t w ph) :
    Stands lo window s t [i] := by
  refine ⟨rfl, ?_⟩
  cases i with
  | validate c => cases hphase
  | _ => exact ⟨hsound, w, ph, hphase, hp⟩

theorem Current.same (h : s.Current t w) {s' : KeyedState} {w' : Keyed} (hcalls : s'.calls = s.calls)
    (hanswers : s'.answers = s.answers) (hid : w'.id = w.id) : s'.Current t w' := by
  refine ⟨?_, ?_, ?_, ?_⟩
  · rw [hid]
    exact h.thread
  · rw [hid, hcalls]
    exact h.last
  · rw [hanswers, hid]
    exact h.open_
  · rw [hanswers, hid]
    exact h.before

theorem Tracks.floor (h : Tracks lo window s) (hconfig : f.topic.config = s.floor.topic.config) :
    Tracks lo window { s with floor := f } :=
  { h with config := (congrArg TopicConfig.idempotencyWindowMs hconfig).trans h.config }

theorem Tracks.onFloor (h : Tracks lo window s) (hconfig : f.topic.config = s.floor.topic.config)
    (hphase : i.phase = some (w, ph)) (hsound : i.Sound) (hp : Placed lo window s t w ph) :
    Advances lo window t s (.next { s with floor := f } [i]) :=
  ⟨h.floor hconfig, .of_floor t s f,
    stands_single hphase hsound ⟨hp.1.same rfl rfl rfl, hp.2⟩⟩

theorem stands_leave (hcurrent : s.Current t w) (hwithin : Within lo window w.call.now)
    (hholds : s.HoldsKey t w) (htold : s.Told w.id w.call.key r)
    (hsettled : ∀ k, w.call.key = some k → s.Settled k) : Stands lo window s t [leave w r] := by
  unfold leave
  cases hkey : w.call.key with
  | none =>
    rw [HoldsKey, hkey] at hholds
    exact stands_single rfl trivial ⟨hcurrent, hwithin, htold, hholds⟩
  | some k =>
    rw [HoldsKey, hkey] at hholds
    exact stands_single rfl trivial
      ⟨hcurrent, hwithin, htold, k, hkey, hholds, hsettled k hkey⟩

theorem Tracks.giveUp (h : Tracks lo window s) (hconfig : f.topic.config = s.floor.topic.config)
    (hp : Placed lo window s t w .working) :
    Advances lo window t s (.next { s with floor := f } [leave w .err]) := by
  obtain ⟨hcurrent, hwithin, hholds, hnone, hfirst⟩ := hp
  refine ⟨h.floor hconfig, .of_floor t s f, ?_⟩
  have hsettled : ∀ k, w.call.key = some k → s.Settled k :=
    fun k hkey p hp hpk => absurd hpk (hfirst k hkey p hp)
  exact stands_leave (hcurrent.same rfl rfl rfl) hwithin hholds hnone hsettled

theorem Tracks.validate (h : Tracks lo window s) {c : KeyedCall} (hanswered : s.Answered t)
    (hidle : s.gates.Idle t) (hwithin : Within lo window c.now)
    (hsem : sem s t ok (.validate c) = some o) :
    Advances lo window t s o := by
  cases hsem
  have hmono : ∀ u, s.calls u ≤ update s.calls t (s.calls t + 1) u := fun u => by
    by_cases hu : u = t
    · subst hu
      rw [update_self]
      exact Nat.le_succ _
    · rw [update_of_ne hu]
  -- the number is new
  have hnew : ∀ id : Nat × Nat, id.2 < s.calls id.1 → id ≠ (t, s.calls t) := by
    rintro id hlt rfl
    exact lt_irrefl _ hlt
  refine ⟨⟨h.config, h.gates, h.once, h.settled, h.entries, h.told, h.ids, fun r hr => ?_,
    fun p hp => ?_, h.own⟩, ⟨.refl t _, .inl rfl, fun _ _ hk => hk, .inl rfl, fun u hu => ?_⟩, ?_⟩
  · exact (h.answers r hr).trans_le (hmono _)
  · exact (h.batches p hp).trans_le (hmono _)
  · exact update_of_ne hu ..
  have hcurrent : Current { s with calls := update s.calls t (s.calls t + 1) } t
      ⟨(t, s.calls t), c, 0⟩ :=
    ⟨rfl, by simp, fun r hr => hnew r.id (h.answers r hr), hanswered⟩
  have hnone : ∀ p ∈ s.published, p.id ≠ (t, s.calls t) := fun p hp => hnew p.id (h.batches p hp)
  split
  · split
    · rename_i k hkey
      exact stands_single rfl trivial ⟨hcurrent, hwithin, hkey, hidle, hnone⟩
    · rename_i hkey
      refine stands_single rfl rfl ⟨hcurrent, hwithin, ?_, hnone, fun k hk => ?_⟩
      · rw [HoldsKey, hkey]
        exact hidle
      · rw [hkey] at hk
        cases hk
  · exact stands_single rfl trivial ⟨hcurrent, hwithin, hnone, hidle⟩

theorem Tracks.onGates (h : Tracks lo window s) (hwf : G.WellFormed)
    (hsettled : ∀ k, ¬ G.Owned k → s.Settled k) : Tracks lo window { s with gates := G } :=
  { h with gates := hwf, settled := hsettled }

theorem Effect.of_gates (h : Gates.Undisturbed t s.gates G) :
    Effect t s { s with gates := G } :=
  ⟨h, .inl rfl, fun _ _ hk => hk, .inl rfl, fun _ _ => rfl⟩

theorem Tracks.gateFor (h : Tracks lo window s) {key : String}
    (hp : Placed lo window s t w (.entering key)) :
    Advances lo window t s (.next { s with gates := (s.gates.gateFor t key).1 }
      [.lockGate { w with gate := (s.gates.gateFor t key).2 }]) := by
  obtain ⟨hcurrent, hwithin, hkey, hidle, hnone⟩ := hp
  refine ⟨h.onGates (h.gates.gateFor t key) fun k hk => h.settled k fun ⟨g, u, hg, ho⟩ => ?_,
    .of_gates (Gates.undisturbed_gateFor s.gates t key), ?_⟩
  · have hjoined : s.gates.Joined u k g := ⟨hg, h.gates.owned g u ho⟩
    refine hk ⟨g, u, ?_, by rw [Gates.gateFor_owner]; exact ho⟩
    exact Gates.registry_gateFor hjoined.registered
  · refine stands_single (w := { w with gate := (s.gates.gateFor t key).2 }) rfl trivial
      ⟨hcurrent.same rfl rfl rfl, hwithin, fun g hg => hidle g ?_, hnone, key, hkey,
        Gates.gateFor_joined s.gates t key⟩
    rw [shared_next, Gates.gateFor_owner] at hg
    exact hg

theorem Tracks.lockGate (h : Tracks lo window s) (hp : Placed lo window s t w .waiting)
    (hlock : s.gates.lock t w.gate = some G) :
    Advances lo window t s (.next { s with gates := G } [.checkDedupe w]) := by
  obtain ⟨hcurrent, hwithin, hidle, hnone, k, hkey, hjoined⟩ := hp
  refine ⟨h.onGates (h.gates.lock hjoined.referred hlock) fun k' hk' => h.settled k' fun hown =>
    hk' (Gates.owned_of_lock hlock hown), .of_gates (Gates.undisturbed_lock hlock), ?_⟩
  refine stands_single rfl trivial
    ⟨hcurrent.same rfl rfl rfl, hwithin, hnone, k, hkey, Gates.holds_lock hjoined hidle hlock, ?_⟩
  -- nobody held the gate before
  refine h.settled k ?_
  rintro ⟨g, u, hg, ho⟩
  obtain rfl : g = w.gate := some.inj (hg.symm.trans hjoined.registered)
  rw [(Gates.lock_eq_some hlock).1] at ho
  cases ho

theorem i64SaturatingSub_le_of_within {now created : Int} (hwindow : window < 2 ^ 63)
    (hnow : Within lo window now) (hcreated : Within lo window created) :
    i64SaturatingSub now created ≤ asI64 window := by
  have hcast : asI64 window = window := by
    unfold asI64
    rw [BitVec.toInt_ofNat']
    exact Int.bmod_eq_of_le (by omega) (by omega)
  obtain ⟨hlo, hhi⟩ := hnow
  obtain ⟨hlo', hhi'⟩ := hcreated
  rw [hcast]
  unfold i64SaturatingSub
  omega

theorem Tracks.fresh_eq (h : Tracks lo window s) (hwindow : window < 2 ^ 63)
    (hnow : Within lo window now) : s.fresh now = s.dedupe := by
  funext k
  unfold fresh
  cases he : s.dedupe k with
  | none => rfl
  | some e =>
    refine filter_eq_some_iff.mpr ⟨rfl, decide_eq_true ?_⟩
    rw [h.config]
    exact i64SaturatingSub_le_of_within hwindow hnow (h.entries k e he).1

/-- **The look at the dedupe map.** -/
theorem Tracks.checkDedupe (h : Tracks lo window s) (hwindow : window < 2 ^ 63)
    (hp : Placed lo window s t w .checking) :
    Advances lo window t s (.next { s with dedupe := s.fresh w.call.now }
      [match w.call.key.bind (s.fresh w.call.now) with
        | some e => .unlockGate w (.ok e.seqs e.headSeq true)
        | none => pass w none]) := by
  obtain ⟨hcurrent, hwithin, hnone, k, hkey, hholds, hsettled⟩ := hp
  rw [h.fresh_eq hwindow hwithin, hkey, bind_some]
  refine ⟨h, .of_floor t s s.floor, ?_⟩
  cases he : s.dedupe k with
  | some e =>
    -- answered by the write that left the entry
    exact stands_single rfl trivial
      ⟨hcurrent, hwithin, ⟨hnone, k, hkey, (h.entries k e he).2⟩, k, hkey, hholds, hsettled⟩
  | none =>
    refine stands_single rfl rfl ⟨hcurrent, hwithin, ?_, hnone, fun k' hk' p hp hpk => ?_⟩
    · rw [HoldsKey, hkey]
      exact hholds
    · obtain rfl : k = k' := some.inj (hkey.symm.trans hk')
      obtain ⟨e, he', -⟩ := hsettled p hp hpk
      rw [he] at he'
      cases he'

theorem retains_of_sem {i : FloorInstr} {fo : Outcome FloorState FloorInstr}
    (hi : i.retains = true) (hsem : FloorState.sem f t ok i = some fo) :
    (∃ f' j, fo = .next f' [j] ∧ j.retains = true) ∨ (∃ f', fo = .next f' []) ∨
      (ok = false ∧ (∃ plan byBytes head, i = .harden plan byBytes head) ∧ ∃ f', fo = .stop f') := by
  cases fo with
  | next f' more =>
    have hgo := goes_of_sem hsem
    cases hgo with
    | done => exact .inr (.inl ⟨f', rfl⟩)
    | plan | harden | commit | reclaim | hardened | committed => exact .inl ⟨f', _, rfl, rfl⟩
    | staged | bounded | selected => cases hi
  | stop f' =>
    refine .inr (.inr ?_)
    cases i with
    | harden plan byBytes head =>
      simp only [FloorState.sem] at hsem
      split at hsem
      · cases hsem
      · rename_i hok
        exact ⟨by simpa using hok, ⟨plan, byBytes, head, rfl⟩, f', rfl⟩
    | readHead | plan | commit | reclaim => cases hsem
    | _ => cases hi

theorem Told.publish {id : Nat × Nat} {key : Option String} (g : StagedAppend) (hid : id ≠ w.id)
    (h : s.Told id key r) : (s.publishBatch w g).Told id key r := by
  have hother : (∀ p ∈ s.published, p.id ≠ id) → ∀ p ∈ (s.publishBatch w g).published, p.id ≠ id := by
    intro hnone p hp
    rcases mem_append.mp hp with hp | hp
    · exact hnone p hp
    · cases mem_singleton.mp hp
      exact hid.symm
  cases r with
  | err => exact hother h
  | ok seqs head deduped =>
    cases deduped with
    | false =>
      obtain ⟨p, hp, hfacts⟩ := h
      exact ⟨p, mem_append_left _ hp, hfacts⟩
    | true =>
      obtain ⟨hnone, k, hkey, p, hp, hfacts⟩ := h
      exact ⟨hother hnone, k, hkey, p, mem_append_left _ hp, hfacts⟩

section

variable (h : Tracks lo window s)

include h

/-- **The publish.** -/
theorem Tracks.publish (g : StagedAppend) (hp : Placed lo window s t w .working) :
    Advances lo window t s (.next (s.publishBatch w g)
      [pass w (some (g.seqs, (s.publishBatch w g).floor.topic.headSeq))]) := by
  obtain ⟨hcurrent, hwithin, hholds, hnone, hfirst⟩ := hp
  have hgate : ∀ k, w.call.key = some k → s.gates.Holds t k w.gate := fun k hkey => by
    rw [HoldsKey, hkey] at hholds
    exact hholds
  -- the batches of a key that the thread does not hold are the same
  have hkeep : ∀ k, w.call.key ≠ some k → s.Settled k → (s.publishBatch w g).Settled k := by
    intro k hne hsettled p hp hpk
    rcases mem_append.mp hp with hp | hp
    · exact hsettled p hp hpk
    · cases mem_singleton.mp hp
      exact absurd hpk hne
  have hconfig : (s.publishBatch w g).floor.topic.config = s.floor.topic.config := by
    unfold publishBatch publishStagedNoSeal reserveFor
    split <;> split <;> rfl
  refine ⟨⟨?_, h.gates, fun k => ?_, fun k hk => ?_, fun k e he => ?_, fun r hr => ?_, h.ids, h.answers,
    fun p hp => ?_, ?_⟩, ⟨.refl t _, .inr ⟨_, rfl, hcurrent.thread, fun k hk => ⟨w.gate, hgate k hk⟩⟩,
      fun k hk hsettled => ?_, .inl rfl, fun _ _ => rfl⟩, ?_⟩
  · rw [shared_next, hconfig]
    exact h.config
  · -- the key had no batch before
    simp only [shared_next, publishBatch, filter_append, length_append]
    by_cases hkey : w.call.key = some k
    · have hempty : s.published.filter (·.key = some k) = [] :=
        filter_eq_nil_iff.mpr fun p hp => by simpa using hfirst k hkey p hp
      simp [hempty, hkey]
    · have := h.once k
      simpa [hkey] using this
  · refine hkeep k (fun hkey => hk (hgate k hkey).owned) (h.settled k hk)
  · obtain ⟨hcreated, p, hp, hfacts⟩ := h.entries k e he
    exact ⟨hcreated, p, mem_append_left _ hp, hfacts⟩
  · exact Told.publish g (hcurrent.open_ r hr) (h.told r hr)
  · rcases mem_append.mp hp with hp | hp
    · exact h.batches p hp
    · cases mem_singleton.mp hp
      have hlast := hcurrent.last
      have hthread := hcurrent.thread
      change w.id.2 < s.calls w.id.1
      rw [hthread]
      omega
  · simp only [shared_next, publishBatch, map_append, map_cons, map_nil]
    refine nodup_append.mpr ⟨h.own, nodup_singleton _, fun a ha b hb heq => ?_⟩
    obtain ⟨p, hp, rfl⟩ := mem_map.mp ha
    exact hnone p hp (heq.trans (mem_singleton.mp hb))
  · exact hkeep k (fun hkey => hk w.gate (hgate k hkey)) hsettled
  · exact stands_single rfl rfl ⟨hcurrent.same rfl rfl rfl, hwithin, hholds, _, mem_concat_self,
      rfl, rfl, rfl⟩

theorem Tracks.batch_unique {k : String} {p p' : Batch} (hp : p ∈ s.published)
    (hp' : p' ∈ s.published) (hk : p.key = some k) (hk' : p'.key = some k) : p = p' := by
  have hmem : p ∈ s.published.filter (·.key = some k) := mem_filter.mpr ⟨hp, by simpa using hk⟩
  have hmem' : p' ∈ s.published.filter (·.key = some k) := mem_filter.mpr ⟨hp', by simpa using hk'⟩
  have honce := h.once k
  generalize s.published.filter (·.key = some k) = l at hmem hmem' honce
  cases l with
  | nil => cases hmem
  | cons x l =>
    have hnil : l = [] := length_eq_zero_iff.mp (by simpa using honce)
    subst hnil
    rw [mem_singleton.mp hmem, mem_singleton.mp hmem']

/-- **The entry.** -/
theorem Tracks.record {seqs : List Nat} {head : Nat}
    (hp : Placed lo window s t w (.published seqs)) :
    Advances lo window t s (.next
      { s with dedupe := match w.call.key with
          | some k => update s.dedupe k (some ⟨seqs, head, w.call.now⟩)
          | none => s.dedupe }
      [leave w (.ok seqs head false)]) := by
  obtain ⟨hcurrent, hwithin, hholds, p, hp, hid, hpk, hseqs⟩ := hp
  have htold : s.Told w.id w.call.key (.ok seqs head false) := ⟨p, hp, hid, hpk, hseqs⟩
  cases hkey : w.call.key with
  | none =>
    refine ⟨h, .of_floor t s s.floor, stands_leave hcurrent hwithin hholds htold fun k hk => ?_⟩
    rw [hkey] at hk
    cases hk
  | some k =>
    rw [hkey] at hpk
    have hmine : s.gates.Holds t k w.gate := by
      rw [HoldsKey, hkey] at hholds
      exact hholds
    have hother : ∀ k', k' ≠ k → ∀ e, update s.dedupe k (some ⟨seqs, head, w.call.now⟩) k' = e ↔
        s.dedupe k' = e := fun k' hne e => by rw [update_of_ne hne]
    have hkeep : ∀ k', k' ≠ k → s.Settled k' →
        Settled { s with dedupe := update s.dedupe k (some ⟨seqs, head, w.call.now⟩) } k' := by
      intro k' hne hsettled p' hp' hpk'
      obtain ⟨e, he, hfacts⟩ := hsettled p' hp' hpk'
      exact ⟨e, (hother k' hne _).mpr he, hfacts⟩
    refine ⟨⟨h.config, h.gates, h.once, fun k' hk' => ?_, fun k' e he => ?_, h.told, h.ids, h.answers,
      h.batches, h.own⟩, ⟨.refl t _, .inl rfl, fun k' hk' => ?_, .inl rfl, fun _ _ => rfl⟩, ?_⟩
    · refine hkeep k' ?_ (h.settled k' hk')
      rintro rfl
      exact hk' hmine.owned
    · by_cases hne : k' = k
      · subst hne
        have he' : e = ⟨seqs, head, w.call.now⟩ := by simpa using he.symm
        rw [he']
        exact ⟨hwithin, p, hp, hpk, hseqs⟩
      · exact h.entries k' e ((hother k' hne _).mp he)
    · refine hkeep k' ?_
      rintro rfl
      exact hk' w.gate hmine
    · refine stands_leave (hcurrent.same rfl rfl rfl) hwithin hholds htold fun k' hk' p' hp' hpk' => ?_
      obtain rfl : k = k' := some.inj (hkey.symm.trans hk')
      have hsame : p = p' := h.batch_unique hp hp' hpk hpk'
      exact ⟨⟨seqs, head, w.call.now⟩, by simp, hsame ▸ hseqs.symm⟩

theorem Tracks.unlockGate (hp : Placed lo window s t w (.leaving r)) :
    Advances lo window t s (.next { s with gates := s.gates.unlock w.gate }
      [if r = .err then .finish w r else .releaseGate w r]) := by
  obtain ⟨hcurrent, hwithin, htold, k, hkey, hholds, hsettled⟩ := hp
  refine ⟨h.onGates (h.gates.unlock w.gate) fun k' hk' => ?_, .of_gates (Gates.undisturbed_unlock hholds), ?_⟩
  · -- only the key of the write can have become free
    by_cases hown : s.gates.Owned k'
    · rcases Gates.owned_unlock h.gates hholds hown with hown' | rfl
      · exact absurd hown' hk'
      · exact hsettled
    · exact h.settled k' hown
  · have hidle := Gates.idle_unlock hholds
    split
    · exact stands_single rfl trivial ⟨hcurrent.same rfl rfl rfl, hwithin, htold, hidle⟩
    · exact stands_single rfl trivial ⟨hcurrent.same rfl rfl rfl, hwithin, htold, hidle, k, hkey,
        hholds.joined.registered, hholds.joined.referred⟩

theorem Tracks.releaseGate (hp : Placed lo window s t w (.released r)) : Advances lo window t s (.next
      { s with gates := match w.call.key with
          | some k => s.gates.release k w.gate
          | none => s.gates }
      [.finish w r]) := by
  obtain ⟨hcurrent, hwithin, htold, hidle, k, hkey, hjoined⟩ := hp
  rw [hkey]
  refine ⟨h.onGates (h.gates.release k w.gate) fun k' hk' => h.settled k' fun hown => hk' ?_,
    .of_gates (Gates.undisturbed_release hjoined), ?_⟩
  · exact Gates.owned_release h.gates hjoined hidle hown
  · refine stands_single rfl trivial ⟨hcurrent.same rfl rfl rfl, hwithin, htold, fun g hg => hidle g ?_⟩
    rwa [shared_next, Gates.release_owner] at hg

/-- **The answer.** -/
theorem Tracks.finish (hp : Placed lo window s t w (.done r)) :
    Advances lo window t s (.next
      { s with gates := s.gates.leave t, answers := s.answers ++ [⟨w.id, w.call.key, r⟩] } []) := by
  obtain ⟨hcurrent, -, htold, hidle⟩ := hp
  have hthread := hcurrent.thread
  refine ⟨⟨h.config, h.gates.leave hidle, h.once, h.settled, h.entries, fun a ha => ?_, ?_,
    fun a ha => ?_, h.batches, h.own⟩, ⟨Gates.undisturbed_leave s.gates t, .inl rfl, fun _ _ hk => hk,
      .inr ⟨_, rfl, hthread⟩, fun _ _ => rfl⟩, ?_, hidle⟩
  · rcases mem_append.mp ha with ha | ha
    · exact h.told a ha
    · cases mem_singleton.mp ha
      exact htold
  · simp only [shared_next, map_append, map_cons, map_nil]
    refine nodup_append.mpr ⟨h.ids, nodup_singleton _, fun a ha b hb heq => ?_⟩
    obtain ⟨x, hx, rfl⟩ := mem_map.mp ha
    exact hcurrent.open_ x hx (heq.trans (mem_singleton.mp hb))
  · rcases mem_append.mp ha with ha | ha
    · exact h.answers a ha
    · cases mem_singleton.mp ha
      have hlast := hcurrent.last
      change w.id.2 < s.calls w.id.1
      rw [hthread]
      omega
  · -- the open write was the last one
    intro n hn
    have hlast := hcurrent.last
    change n < s.calls t at hn
    by_cases hlt : n < w.id.2
    · obtain ⟨a, ha, hid⟩ := hcurrent.before n hlt
      exact ⟨a, mem_append_left _ ha, hid⟩
    · refine ⟨⟨w.id, w.call.key, r⟩, mem_append_right _ (mem_singleton_self _), ?_⟩
      exact Prod.ext hthread (by change w.id.2 = n; omega)

end

/-- **Condition**: the watermark of the pass behind the publish does not fail. -/
def Hardens (_ : KeyedState) (_ : Nat) (ok : Bool) (i : KeyedInstr) : Prop :=
  i.hardensLate = true → ok = true

instance (s : KeyedState) (t : Nat) (ok : Bool) (i : KeyedInstr) : Decidable (Hardens s t ok i) :=
  inferInstanceAs (Decidable (i.hardensLate = true → ok = true))

/-- **One step.** -/
theorem Tracks.advances (h : Tracks lo window s) (hwindow : window < 2 ^ 63)
    {rest : List KeyedInstr} (hstands : Stands lo window s t (i :: rest))
    (hhardens : Hardens s t ok i) (hsem : sem s t ok i = some o) : Advances lo window t s o := by
  obtain ⟨-, hcase⟩ := hstands
  cases i with
  | validate c => exact h.validate hcase.1 hcase.2.1 hcase.2.2 hsem
  | gateFor w key =>
    obtain ⟨-, _, _, ⟨⟩, hp⟩ := hcase
    cases hsem
    exact h.gateFor hp
  | lockGate w =>
    obtain ⟨-, _, _, ⟨⟩, hp⟩ := hcase
    obtain ⟨G, hlock, rfl⟩ := map_eq_some_iff.mp hsem
    exact h.lockGate hp hlock
  | checkDedupe w =>
    obtain ⟨-, _, _, ⟨⟩, hp⟩ := hcase
    cases hsem
    exact h.checkDedupe hwindow hp
  | retain w done i =>
    obtain ⟨hsound, w', ph, hphase, hp⟩ := hcase
    obtain ⟨fo, hfo, rfl⟩ := map_eq_some_iff.mp hsem
    have hconfig := config_of_sem hfo
    obtain rfl : w' = w := by cases done <;> cases hphase <;> rfl
    rcases retains_of_sem hsound hfo with ⟨f', j, rfl, hj⟩ | ⟨f', rfl⟩ | ⟨hok, hi, f', rfl⟩
    · refine h.onFloor hconfig (i := .retain w' done j) ?_ hj hp
      cases done <;> exact hphase
    · refine h.onFloor hconfig (i := afterPass w' done) ?_ ?_ hp
      · cases done <;> exact hphase
      · cases done <;> trivial
    · obtain ⟨plan, byBytes, head, rfl⟩ := hi
      cases done with
      | none =>
        cases hphase
        exact h.giveUp hconfig hp
      | some done =>
        -- behind the publish the watermark does not fail
        rw [hhardens rfl] at hok
        cases hok
  | admission w =>
    obtain ⟨-, _, _, ⟨⟩, hp⟩ := hcase
    cases hsem
    split
    · exact h.giveUp rfl hp
    · exact h.onFloor rfl rfl trivial hp
  | reserveQuota w =>
    obtain ⟨-, _, _, ⟨⟩, hp⟩ := hcase
    cases hsem
    split
    · exact h.onFloor rfl rfl trivial hp
    · exact h.giveUp rfl hp
  | lock w =>
    obtain ⟨-, _, _, ⟨⟩, hp⟩ := hcase
    simp only [sem] at hsem
    split at hsem <;> cases hsem
    exact h.onFloor (f := { s.floor with locked := some t }) (i := .stage w) rfl rfl trivial hp
  | stage w =>
    obtain ⟨-, _, _, ⟨⟩, hp⟩ := hcase
    cases hsem
    exact h.onFloor (f := { s.floor with topic := (s.floor.topic.stageAppend w.call.stored).1 })
      (i := .enqueue w _) rfl rfl trivial hp
  | enqueue w g =>
    obtain ⟨-, _, _, ⟨⟩, hp⟩ := hcase
    simp only [sem] at hsem
    split at hsem <;> cases hsem
    · exact h.onFloor (f := { s.floor with locked := none, nextTicket := s.floor.nextTicket + 1 })
        (i := .commit w g _) rfl rfl trivial hp
    · refine h.giveUp ?_ hp
      unfold rollbackStaged
      split <;> rfl
  | commit w g ticket =>
    obtain ⟨-, _, _, ⟨⟩, hp⟩ := hcase
    simp only [sem] at hsem
    split at hsem <;> cases hsem
    split
    · exact h.onFloor rfl rfl trivial hp
    · exact h.giveUp rfl hp
  | publish w g =>
    obtain ⟨-, _, _, ⟨⟩, hp⟩ := hcase
    cases hsem
    split
    · exact h.giveUp rfl hp
    · exact h.publish g hp
  | record w seqs head =>
    obtain ⟨-, _, _, ⟨⟩, hp⟩ := hcase
    cases hsem
    exact h.record hp
  | unlockGate w r =>
    obtain ⟨-, _, _, ⟨⟩, hp⟩ := hcase
    cases hsem
    exact h.unlockGate hp
  | releaseGate w r =>
    obtain ⟨-, _, _, ⟨⟩, hp⟩ := hcase
    cases hsem
    exact h.releaseGate hp
  | finish w r =>
    obtain ⟨-, _, _, ⟨⟩, hp⟩ := hcase
    cases hsem
    exact h.finish hp

end Step

/-! ## Whole runs -/

section Run

variable {lo : Int} {spec : TopicSpec} {s : Threads KeyedState KeyedInstr}
  {as : List (ThreadAction KeyedCall Bool)}

abbrev Consistent (lo : Int) (window : Nat) : Threads KeyedState KeyedInstr → Prop :=
  Threads.Holds (Tracks lo window) (Stands lo window)

theorem consistent_start (lo : Int) (spec : TopicSpec) :
    Consistent lo spec.config.idempotencyWindowMs (start spec) := by
  refine ⟨⟨rfl, Gates.wellFormed_empty, fun k => Nat.zero_le _, fun k _ p hp => ?_, fun k e he => ?_,
    fun r hr => ?_, nodup_nil, fun r hr => ?_, fun p hp => ?_, nodup_nil⟩,
    fun t => ⟨fun n hn => ?_, fun g hg => ?_⟩⟩
  · cases hp
  · cases he
  · cases hr
  · cases hr
  · cases hp
  · cases hn
  · cases hg

/-- The calls of a run read the clock within one window. -/
def ClockWithin (lo : Int) (window : Nat) (as : List (ThreadAction KeyedCall Bool)) : Prop :=
  ∀ t c, .start t c ∈ as → Within lo window c.now

variable {window : Nat} {st : KeyedState} {k : String}

/-- **One step of a run.** -/
theorem Consistent.step {s s' : Threads KeyedState KeyedInstr} {a : ThreadAction KeyedCall Bool}
    (h : Consistent lo window s) (hwindow : window < 2 ^ 63)
    (ha : Threads.OnInput (fun c => Within lo window c.now) Hardens s a)
    (hstep : KeyedState.step s a = some s') : Consistent lo window s' := by
  refine h.stepOn ?_ ?_ ha hstep
  · intro s t c _ hidle hc
    exact ⟨rfl, hidle.1, hidle.2, hc⟩
  · intro s t ok i rest o hi hP hQ hsem
    obtain rfl : rest = [] := hQ.1
    have hadv := hP.advances hwindow hQ hi hsem
    exact ⟨hadv.tracks, hadv.stands, fun u code hu hcode => hadv.effect.other hu hcode⟩

theorem along_within {R : KeyedState → Nat → Bool → KeyedInstr → Prop}
    {s : Threads KeyedState KeyedInstr} (hclock : ClockWithin lo window as)
    (h : Along step (Threads.OnInput (fun _ => True) R) s as) :
    Along step (Threads.OnInput (fun c => Within lo window c.now) R) s as := by
  have hstart : ∀ a ∈ as, ∀ t c, a = .start t c → Within lo window c.now := by
    rintro a ha t c rfl
    exact hclock t c ha
  refine (h.and_mem _ hstart).mono _ ?_
  rintro s a ⟨hc, hi⟩
  cases a with
  | start t c => exact hc t c rfl
  | run t ok => exact hi

theorem batch_of_seqs {id : Nat × Nat} {r : WriteReply} {seqs : List Nat}
    (h : st.Told id (some k) r) (hr : r.seqs = some seqs) :
    ∃ p ∈ st.published, p.key = some k ∧ p.seqs = seqs := by
  cases r with
  | err => cases hr
  | ok seqs' head deduped =>
    cases hr
    cases deduped with
    | false =>
      obtain ⟨p, hp, -, hfacts⟩ := h
      exact ⟨p, hp, hfacts⟩
    | true =>
      obtain ⟨-, _, ⟨⟩, hfacts⟩ := h
      exact hfacts

theorem Tracks.first_unique (h : Tracks lo window st) (hanswered : ∀ t, st.Answered t) {p : Batch}
    (hp : p ∈ st.published) (hk : p.key = some k) :
    (st.answers.filter fun a => a.key = some k ∧ a.reply.first).length = 1 := by
  obtain ⟨a, ha, hid⟩ := hanswered p.id.1 p.id.2 (h.batches p hp)
  have hfirst : a.key = some k ∧ a.reply.first = true := by
    have htold := h.told a ha
    cases hr : a.reply with
    | err =>
      rw [hr] at htold
      exact absurd hid.symm (htold p hp)
    | ok seqs head deduped =>
      rw [hr] at htold
      cases deduped with
      | true => exact absurd hid.symm (htold.1 p hp)
      | false =>
        obtain ⟨p', hp', hid', hkey', -⟩ := htold
        have hsame : p = p' := inj_on_of_nodup_map h.own hp hp' (hid.symm.trans hid'.symm)
        exact ⟨hkey'.symm.trans (hsame ▸ hk), rfl⟩
  -- any other first answer for the key is about the same batch
  have hall : ∀ b ∈ st.answers.filter fun a => a.key = some k ∧ a.reply.first, b = a := by
    intro b hb
    obtain ⟨hb, hfacts⟩ := mem_filter.mp hb
    obtain ⟨hbk, hbf⟩ := of_decide_eq_true hfacts
    have htold := h.told b hb
    cases hr : b.reply with
    | err =>
      rw [hr] at hbf
      cases hbf
    | ok seqs head deduped =>
      rw [hr] at hbf htold
      cases deduped with
      | true => cases hbf
      | false =>
        obtain ⟨p', hp', hid', hkey', -⟩ := htold
        have hsame : p' = p := h.batch_unique hp' hp (hkey'.trans hbk) hk
        exact inj_on_of_nodup_map h.ids hb ha (hid'.symm.trans (hsame ▸ hid.symm))
  have hmem : a ∈ st.answers.filter fun a => a.key = some k ∧ a.reply.first :=
    mem_filter.mpr ⟨ha, decide_eq_true hfirst⟩
  have hnodup := (List.Nodup.of_map _ h.ids).filter fun a => a.key = some k ∧ a.reply.first
  generalize (st.answers.filter fun a => a.key = some k ∧ a.reply.first) = l at hall hmem hnodup
  cases l with
  | nil => cases hmem
  | cons x l =>
    have hnil : l = [] := by
      refine eq_nil_iff_forall_not_mem.mpr fun y hy => ?_
      have hx := hall x mem_cons_self
      have hy' := hall y (mem_cons_of_mem _ hy)
      exact (nodup_cons.mp hnodup).1 (hx.trans hy'.symm ▸ hy)
    rw [hnil]
    rfl

/-- **Idempotency keys publish once.**  In every interleaving of writes on a topic whose window is
below `2 ^ 63` ms, with all clock readings within one window and no operation failing, at most one
batch per key is published and all answers for a key name the same seqs; once no write is in progress,
exactly one of the successful answers for a key is not deduped. -/
theorem keys_publish_once (hwindow : spec.config.idempotencyWindowMs < 2 ^ 63)
    (hclock : ClockWithin lo spec.config.idempotencyWindowMs as)
    (hok : ∀ t ok, .run t ok ∈ as → ok = true) (hrun : exec step (start spec) as = some s) (k : String) :
    (s.shared.published.filter (·.key = some k)).length ≤ 1 ∧
      (∀ a ∈ s.shared.answers, ∀ b ∈ s.shared.answers, a.key = some k → b.key = some k →
        ∀ seqs seqs', a.reply.seqs = some seqs → b.reply.seqs = some seqs' →
          seqs = seqs') ∧
      ((∀ t, s.code t = []) → (∃ a ∈ s.shared.answers, a.key = some k ∧
          (a.reply.seqs).isSome) →
        (s.shared.answers.filter fun a => a.key = some k ∧ a.reply.first).length = 1) := by
  have hhardens : Along step (Threads.OnInput (fun _ => True) Hardens) (start spec) as := by
    have hinputs : ∀ a ∈ as, ∀ t ok, a = .run t ok → ok = true := by
      rintro a ha t ok rfl
      exact hok t ok ha
    refine ((along_true step (start spec) as).and_mem _ hinputs).mono _ ?_
    rintro s a ⟨ha, -⟩
    cases a with
    | start => trivial
    | run t ok => exact fun _ _ _ => ha t ok rfl
  have h := exec_invariant_along _ (I := Consistent lo spec.config.idempotencyWindowMs)
    (fun _ _ _ hs ha hstep => hs.step hwindow ha hstep) (consistent_start lo spec)
    (along_within hclock hhardens) hrun
  have htracks := h.shared
  refine ⟨htracks.once k, ?_, fun hidle => ?_⟩
  · intro a ha b hb hak hbk seqs seqs' hseqs hseqs'
    have htold := htracks.told a ha
    have htold' := htracks.told b hb
    rw [hak] at htold
    rw [hbk] at htold'
    obtain ⟨p, hp, hpk, rfl⟩ := batch_of_seqs htold hseqs
    obtain ⟨p', hp', hpk', rfl⟩ := batch_of_seqs htold' hseqs'
    rw [htracks.batch_unique hp hp' hpk hpk']
  · rintro ⟨a, ha, hak, hsome⟩
    obtain ⟨seqs, hseqs⟩ := isSome_iff_exists.mp hsome
    have htold := htracks.told a ha
    rw [hak] at htold
    obtain ⟨p, hp, hpk, -⟩ := batch_of_seqs htold hseqs
    refine htracks.first_unique (fun t => ?_) hp hpk
    have hcode := h.code t
    rw [hidle t] at hcode
    exact hcode.1

/-- A write of one record under the key `k`. -/
def keyedWrite (k : String) : KeyedCall := ⟨some k, [.plain none], 0, by simp [StoredRecord.plain]⟩

def windowed (window : Nat) : TopicSpec := ⟨"jobs", 1, { idempotencyWindowMs := window }, 0⟩

/-- Steps of thread `t` that succeed. -/
def runs (t n : Nat) : List (ThreadAction KeyedCall Bool) := List.replicate n (.run t true)

/-- Two writes under one key: the second has asked for the gate when the first takes it, and gets it
when the first is done with it. -/
def contended : List (ThreadAction KeyedCall Bool) :=
  [.start 1 (keyedWrite "k"), .start 2 (keyedWrite "k")] ++ runs 1 3 ++ runs 2 2 ++ runs 1 14 ++ runs 2 5

theorem keys_publish_once_contended :
    ∃ s, exec step (start (windowed 120000)) contended = some s ∧
      (∀ t, t = 1 ∨ t = 2 → s.code t = []) ∧ s.shared.answers.length = 2 ∧
      (s.shared.published.filter (·.key = some "k")).length ≤ 1 := by
  obtain ⟨s, hrun, hidle, hanswers⟩ : ∃ s, exec step (start (windowed 120000)) contended = some s ∧
      (∀ t, t = 1 ∨ t = 2 → s.code t = []) ∧ s.shared.answers.length = 2 := by
    refine ⟨_, rfl, ?_, by decide +kernel⟩
    rintro t (rfl | rfl) <;> rfl
  have hclock : ClockWithin 0 (windowed 120000).config.idempotencyWindowMs contended := by
    intro t c hc
    simp only [contended, runs, cons_append, nil_append, mem_cons, mem_append,
      mem_replicate, ThreadAction.start.injEq, reduceCtorEq, and_false, or_false] at hc
    rcases hc with ⟨-, rfl⟩ | ⟨-, rfl⟩ <;> exact ⟨le_rfl, by decide⟩
  have hok : ∀ t ok, .run t ok ∈ contended → ok = true := by
    intro t ok h
    simp only [contended, runs, cons_append, nil_append, mem_cons, mem_append,
      mem_replicate, ThreadAction.run.injEq, reduceCtorEq, false_or] at h
    tauto
  exact ⟨s, hrun, hidle, hanswers, (keys_publish_once (by decide) hclock hok hrun "k").1⟩

/-- **The key is published twice.**  As an `i64` the window `2 ^ 64 - 1` is `-1`: the entry of the first
write is stale at the very time it was made. -/
theorem key_published_twice :
    ∃ s, exec step (start (windowed (2 ^ 64 - 1)))
        ([.start 1 (keyedWrite "k")] ++ runs 1 17 ++ [.start 2 (keyedWrite "k")] ++ runs 2 17) = some s ∧
      s.shared.published.map (fun p => (p.key, p.seqs)) = [(some "k", [1]), (some "k", [2])] ∧
      s.shared.answers.map (·.reply) = [.ok [1] 1 false, .ok [2] 2 false] :=
  ⟨_, rfl, by decide +kernel, by decide +kernel⟩

end Run

end KeyedState

end Topics
