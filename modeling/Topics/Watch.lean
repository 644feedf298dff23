import Topics.Lib.Threads
import Topics.WatchPages

/-!
# Watch streams

`http/watch.rs`: a session keeps one cursor per topic, and every stream opened on it reads the
topics page by page, stores the new cursor and yields a frame whose id is the whole cursor map.
Streams of one session share the map; nothing else does.
-/

namespace Topics

open Lib TopicState List Option Outcome

/-! ## Frames -/

/-- The cursor map of a session.  The id of a frame encodes it. -/
abbrev Cursors := String → Nat

/-- The frames of a stream, without the `retry:` line. -/
inductive FrameBody where
  | record (topic : String) (fromSeq headSeq : Nat) (records : List RecordOut) (toSeq : Nat)
  | tombstone (topic : String) (gap : Tombstone)
  | caughtUp (topic : String) (headSeq : Nat)
  | topicDeleted (topic : String)
  | error

namespace FrameBody

def Hands (name : String) (q : Nat) : FrameBody → Prop
  | .record topic _ _ records _ => topic = name ∧ ∃ o ∈ records, o.seq = q
  | _ => False

/-- The frame hands out the record, or is a tombstone whose gap covers it. -/
def Tells (name : String) (q : Nat) : FrameBody → Prop
  | .record topic _ _ records _ => topic = name ∧ ∃ o ∈ records, o.seq = q
  | .tombstone topic gap => topic = name ∧ gap.gapFrom ≤ q ∧ q ≤ gap.gapTo
  | _ => False

instance (name : String) (q : Nat) (f : FrameBody) : Decidable (f.Tells name q) := by
  unfold Tells
  split <;> infer_instance

theorem Hands.tells {name : String} {q : Nat} {f : FrameBody} (h : f.Hands name q) :
    f.Tells name q := by
  cases f with
  | record => exact h
  | _ => exact h.elim

end FrameBody

structure WatchFrame where
  id : Cursors
  body : FrameBody

/-! ## The machine -/

/-- The subscription: the topics, which are the keys of the cursor map, and the filters of every
read. -/
structure WatchSession where
  names : List String
  req : DiffRequest
  nodup : names.Nodup

structure StreamLocals where
  deleted : List String
  firstRead : List String
  /-- The topics that were last seen caught up. -/
  caughtUp : List String

/-- A call on one topic: a write, a delete, a retention pass, or what a router does to its dest. -/
inductive TopicCall where
  | write (records : List RecordIn) (now : Int)
  | delete (beforeSeq : Option Nat) (match_ : Option Filter) (now : Int)
  | retain (now : Int)
  | derive (records : List StoredRecord)
  | trim

inductive WatchOp where
  | on (name : String) (call : TopicCall)
  | create (spec : TopicSpec)
  | remove (name : String)

/-- The topics, the session and its streams, and what reached the client. -/
structure WatchState where
  topics : String → Option TopicState
  clock : Int
  cursors : Cursors
  locals : Nat → StreamLocals
  /-- What each stream has yielded. -/
  sent : Nat → List WatchFrame
  /-- The stream that was opened last. -/
  current : Option Nat
  /-- History: the frames of earlier streams that reached the client. -/
  prior : List WatchFrame
  /-- How many frames of the current stream reached the client. -/
  got : Nat

inductive WatchInstr where
  | rewind (id : String → Option Nat)
  | pass
  | visit (name : String)
  | drain (name : String)
  | diff (name : String) (fromSeq : Nat)
  | store (name : String) (seq : Nat)
  | send (name : String) (body : FrameBody)
  | caughtUp (name : String) (headSeq : Nat)
  | park
  | engine (op : WatchOp)
  | receive

/-- A clock reading, and whether the step succeeds: a retention pass that fails ends the read, and
a pass that finds the server shutting down ends the stream. -/
structure WatchInput where
  now : Int
  ok : Bool

inductive WatchCall where
  /-- A `GET` with the decoded `Last-Event-ID`, which may name any topics. -/
  | open (id : String → Option Nat)
  | engine (op : WatchOp)
  | receive

def WatchCall.body : WatchCall → List WatchInstr
  | .open id => [.rewind id, .pass]
  | .engine op => [.engine op]
  | .receive => [.receive]

namespace TopicCall

variable {Blob : Type} (S : Serde Blob)

def now? : TopicCall → Option Int
  | .write _ now | .delete _ _ now | .retain now => some now
  | .derive _ | .trim => none

def apply (b : TopicState) : TopicCall → TopicState
  | .write records now => (LogRun.write S b records now).1
  | .delete beforeSeq match_ now => LogRun.delete b beforeSeq match_ now
  | .retain now => b.enforceRetention now
  | .derive records => b.append records
  | .trim => b.noteSourceTrim

end TopicCall

/-- The instructions between two topics of a pass. -/
def WatchInstr.Plain : WatchInstr → Prop
  | .visit _ | .pass | .park => True
  | _ => False

/-- A topic of the session is not created again. -/
def WatchOp.Spares (w : WatchSession) : WatchOp → Prop
  | .create spec => spec.name ∉ w.names
  | _ => True

instance (w : WatchSession) (op : WatchOp) : Decidable (op.Spares w) := by
  unfold WatchOp.Spares
  split <;> infer_instance

namespace WatchState

variable {Blob : Type}

def init (topics : String → Option TopicState) (cursors : Cursors) (clock : Int) : WatchState where
  topics := topics
  clock := clock
  cursors := cursors
  locals := fun _ => ⟨[], [], []⟩
  sent := fun _ => []
  current := none
  prior := []
  got := 0

/-- The frames that reached the client, over all streams. -/
def received (s : WatchState) : List WatchFrame :=
  s.prior ++ (s.current.elim [] fun u => (s.sent u).take s.got)

/-- Yield a frame; its id is the map as it is now. -/
def emit (s : WatchState) (t : Nat) (body : FrameBody) : WatchState :=
  { s with sent := Function.update s.sent t (s.sent t ++ [⟨s.cursors, body⟩]) }

def setLocals (s : WatchState) (t : Nat) (l : StreamLocals) : WatchState :=
  { s with locals := Function.update s.locals t l }

def vanish (s : WatchState) (t : Nat) (name : String) : WatchState :=
  (s.setLocals t { s.locals t with deleted := name :: (s.locals t).deleted }).emit t
    (.topicDeleted name)

/-- A tombstone goes first; on the first read of the topic it has a reason of its own. -/
def tombstoneCode (name : String) (first : Bool) (d : DiffResponse) : List WatchInstr :=
  match d.tombstone with
  | some gap =>
    [.store name gap.gapTo,
      .send name (.tombstone name { gap with reason := if first then .fromSeqTooOld else gap.reason })]
  | none => []

/-- Then the records.  Without any, the cursor still moves, unless the tombstone moved it. -/
def recordCode (name : String) (fromSeq : Nat) (d : DiffResponse) : List WatchInstr :=
  if d.records.isEmpty then
    if d.tombstone.isNone then [.store name d.nextFromSeq] else []
  else
    [.store name d.nextFromSeq,
      .send name (.record name fromSeq d.headSeq d.records d.nextFromSeq)]

def pageCode (name : String) (fromSeq : Nat) (first : Bool) (d : DiffResponse) : List WatchInstr :=
  tombstoneCode name first d ++ recordCode name fromSeq d ++
    [if d.caughtUp then .caughtUp name d.headSeq else .drain name]

section Sem

variable (S : Serde Blob) (resolve : String → Nat → Value × Option Value) (w : WatchSession)

/-- A call on the topics.  Clocks do not go back. -/
def engine (s : WatchState) : WatchOp → Option WatchState
  | .on name call =>
    match s.topics name with
    | none => none
    | some b =>
      if s.clock ≤ call.now?.getD s.clock then
        some { s with
          topics := Function.update s.topics name (some (call.apply S b))
          clock := call.now?.getD s.clock }
      else none
  | .create spec =>
    match s.topics spec.name with
    | none => some { s with topics := Function.update s.topics spec.name (some spec.fresh) }
    | some _ => none
  | .remove name => some { s with topics := Function.update s.topics name none }

/-- One instruction of stream or thread `t`. -/
def sem (s : WatchState) (t : Nat) (x : WatchInput) :
    WatchInstr → Option (Outcome WatchState WatchInstr)
  | .rewind id =>
    -- rewind only: the lower of the stored and the resumed cursor
    some (.next
      { s with
        cursors := fun n =>
          if n ∈ w.names then ((id n).map (min (s.cursors n))).getD (s.cursors n) else s.cursors n
        locals := Function.update s.locals t ⟨[], w.names, []⟩
        sent := Function.update s.sent t []
        current := some t
        prior := s.received
        got := 0 } [])
  | .pass =>
    if x.ok then some (.next s (w.names.map .visit ++ [.park]))
    else some (.stop (s.emit t .error))
  | .visit name =>
    if name ∈ (s.locals t).deleted then some (.next s [])
    else
      match s.topics name with
      | none => some (.next (s.vanish t name) [])
      | some _ => some (.next s [.drain name])
  | .drain name => some (.next s [.diff name (s.cursors name)])
  | .diff name fromSeq =>
    match s.topics name with
    | none => some (.next (s.vanish t name) [])
    | some b =>
      if x.ok then
        if s.clock ≤ x.now then
          let b := b.enforceRetention x.now
          let d := b.diff (resolve name) { w.req with fromSeq := fromSeq } x.now
          let l := s.locals t
          some (.next
            ({ s with topics := Function.update s.topics name (some b), clock := x.now }.setLocals t
              { l with firstRead := l.firstRead.filter (· ≠ name) })
            (pageCode name fromSeq (decide (name ∈ l.firstRead)) d))
        else none
      else some (.next (s.vanish t name) [])
  | .store name seq => some (.next { s with cursors := Function.update s.cursors name seq } [])
  | .send name body =>
    let l := s.locals t
    some (.next ((s.setLocals t { l with caughtUp := l.caughtUp.filter (· ≠ name) }).emit t body) [])
  | .caughtUp name headSeq =>
    let l := s.locals t
    if name ∈ l.caughtUp then some (.next s [])
    else
      some (.next ((s.setLocals t { l with caughtUp := name :: l.caughtUp }).emit t
        (.caughtUp name headSeq)) [])
  | .park =>
    if w.names.all (· ∈ (s.locals t).deleted) then some (.stop s) else some (.next s [.pass])
  | .engine op => (s.engine S op).map (.next · [])
  | .receive =>
    match s.current with
    | none => none
    | some u => if s.got < (s.sent u).length then some (.next { s with got := s.got + 1 } []) else none

/-- Any number of streams of one session, calls on the topics and a client, interleaved. -/
abbrev step := Threads.step WatchCall.body (sem S resolve w)

def start (topics : String → Option TopicState) (cursors : Cursors) (clock : Int) :
    Threads WatchState WatchInstr := ⟨init topics cursors clock, fun _ => []⟩

end Sem

/-! ## Calls on the topics -/

variable {b : TopicState} {w : WatchSession} {s s' : WatchState} {S : Serde Blob} {op : WatchOp}

theorem fades_apply (S : Serde Blob) (hl : b.Level) (call : TopicCall) :
    b.Fades (call.apply S b) := by
  cases call with
  | write records now =>
    simp only [TopicCall.apply, LogRun.write]
    have hretain := TopicState.Fades.enforceRetention b now
    split
    · exact hretain
    · exact (hretain.trans (.append (hretain.level hl) _)).trans (.enforceRetention _ now)
  | delete beforeSeq match_ now =>
    exact (TopicState.Fades.enforceRetention b now).trans
      (.of_steady (steady_applyDelete _ _ _ _ _) (shrinks_applyDelete _ _ _ _ _)
        (floors_le_applyDelete _ _ _ _ _))
  | retain now => exact .enforceRetention b now
  | derive records => exact .append hl records
  | trim => exact .noteSourceTrim hl

def Leveled (s : WatchState) : Prop := ∀ n b, s.topics n = some b → b.Level

/-- Time goes on; the topics of the session fade or are gone. -/
structure Later (w : WatchSession) (s s' : WatchState) : Prop where
  clock : s.clock ≤ s'.clock
  topics : ∀ n ∈ w.names, ∀ b', s'.topics n = some b' → ∃ b, s.topics n = some b ∧ b.Fades b'

theorem Later.of_eq (htopics : s'.topics = s.topics) (hclock : s'.clock = s.clock) : Later w s s' :=
  ⟨hclock.ge, fun n _ b hb => ⟨b, (congrFun htopics n).symm.trans hb, .refl b⟩⟩

theorem Later.update {name : String} {b b' : TopicState} (hb : s.topics name = some b)
    (hf : b.Fades b') {clock : Int} (hclock : s.clock ≤ clock)
    (htopics : s'.topics = Function.update s.topics name (some b')) (hclock' : s'.clock = clock) :
    Later w s s' := by
  refine ⟨hclock'.symm ▸ hclock, fun n _ b'' hb'' => ?_⟩
  rw [htopics] at hb''
  by_cases hn : n = name
  · subst hn
    rw [Function.update_self] at hb''
    cases hb''
    exact ⟨b, hb, hf⟩
  · rw [Function.update_of_ne hn] at hb''
    exact ⟨b'', hb'', .refl b''⟩

theorem later_engine (hl : Leveled s) (hop : op.Spares w) (h : s.engine S op = some s') :
    Later w s s' ∧ s'.cursors = s.cursors ∧ s'.sent = s.sent ∧ s'.current = s.current ∧
      s'.prior = s.prior ∧ s'.got = s.got := by
  cases op with
  | on name call =>
    simp only [engine] at h
    split at h
    · cases h
    · rename_i b hb
      obtain ⟨hclock, ⟨⟩⟩ := ite_none_right_eq_some.mp h
      exact ⟨.update hb (fades_apply S (hl name b hb) call) hclock rfl rfl, rfl, rfl, rfl, rfl, rfl⟩
  | create spec =>
    simp only [engine] at h
    split at h
    · cases h
      refine ⟨⟨le_rfl, fun n hn b' hb' => ?_⟩, rfl, rfl, rfl, rfl, rfl⟩
      have hne : n ≠ spec.name := fun heq => hop (heq ▸ hn)
      simp only [Function.update_of_ne hne] at hb'
      exact ⟨b', hb', .refl b'⟩
    · cases h
  | remove name =>
    cases h
    refine ⟨⟨le_rfl, fun n _ b' hb' => ?_⟩, rfl, rfl, rfl, rfl, rfl⟩
    by_cases hne : n = name
    · subst hne
      simp only [Function.update_self] at hb'
      cases hb'
    · simp only [Function.update_of_ne hne] at hb'
      exact ⟨b', hb', .refl b'⟩

theorem leveled_engine (hl : Leveled s) (h : s.engine S op = some s') : Leveled s' := by
  have hput : ∀ name b, b.Level → ∀ n b',
      Function.update s.topics name (some b) n = some b' → b'.Level := fun name b hb n b' hb' => by
    by_cases hn : n = name
    · subst hn
      rw [Function.update_self] at hb'
      cases hb'
      exact hb
    · rw [Function.update_of_ne hn] at hb'
      exact hl n b' hb'
  cases op with
  | on name call =>
    simp only [engine] at h
    split at h
    · cases h
    · rename_i b hb
      split at h
      · cases h
        exact hput name _ ((fades_apply S (hl name b hb) call).level (hl name b hb))
      · cases h
  | create spec =>
    simp only [engine] at h
    split at h
    · cases h
      exact hput spec.name _ rfl
    · cases h
  | remove name =>
    cases h
    intro n b' hb'
    by_cases hn : n = name
    · subst hn
      simp only [Function.update_self] at hb'
      cases hb'
    · simp only [Function.update_of_ne hn] at hb'
      exact hl n b' hb'

/-! ## What the frames of a stream cover -/

section Cover

variable (w : WatchSession) (base : Cursors)

/-- Above `base` and up to `c`, every record that is shown now is in one of the frames. -/
def CovAt (s : WatchState) (bodies : List FrameBody) (n : String) (c : Nat) : Prop :=
  n ∈ w.names → ∀ b, s.topics n = some b → c ≤ b.headSeq ∧
    ∀ q, base n < q → q ≤ c → b.Shown w.req s.clock q → ∃ body ∈ bodies, body.Hands n q

def pending : List WatchInstr → List FrameBody
  | .send _ body :: _ => [body]
  | _ => []

/-- At each point of its code the stream may go on: what it is about to store is covered by its
frames and the one it sends next. -/
def Ready (s : WatchState) : List FrameBody → List WatchInstr → Prop
  | _, [] => True
  | bodies, .diff n c :: rest => CovAt w base s bodies n c ∧ ∀ i ∈ rest, i.Plain
  | bodies, .store n c :: rest => CovAt w base s (bodies ++ pending rest) n c ∧ Ready s bodies rest
  | bodies, .send _ body :: rest => Ready s (bodies ++ [body]) rest
  | _, .rewind _ :: _ | _, .engine _ :: _ | _, .receive :: _ => False
  | _, .pass :: rest | _, .visit _ :: rest | _, .drain _ :: rest | _, .caughtUp _ _ :: rest
  | _, .park :: rest => ∀ i ∈ rest, i.Plain

/-- The frames `G` and those of stream `t` cover the cursors of the session. -/
structure Cover (G : List FrameBody) (t : Nat) (s : WatchState) (code : List WatchInstr) : Prop where
  cursors : ∀ n, CovAt w base s (G ++ (s.sent t).map WatchFrame.body ++ pending code) n (s.cursors n)
  ready : Ready w base s (G ++ (s.sent t).map WatchFrame.body) code

variable {w base} {s s' : WatchState} {bodies bodies' : List FrameBody} {n : String} {c c' : Nat}

namespace CovAt

theorem lower (h : CovAt w base s bodies n c) (hc : c' ≤ c) : CovAt w base s bodies n c' :=
  fun hn b hb => ⟨hc.trans (h hn b hb).1, fun q hq hqc => (h hn b hb).2 q hq (hqc.trans hc)⟩

theorem mono (h : CovAt w base s bodies n c) (hsub : bodies ⊆ bodies') :
    CovAt w base s bodies' n c := fun hn b hb =>
  ⟨(h hn b hb).1, fun q hq hqc hs =>
    let ⟨body, hmem, hhands⟩ := (h hn b hb).2 q hq hqc hs
    ⟨body, hsub hmem, hhands⟩⟩

theorem later (h : CovAt w base s bodies n c) (hlater : Later w s s') :
    CovAt w base s' bodies n c := by
  intro hn b' hb'
  obtain ⟨b, hb, hf⟩ := hlater.topics n hn b' hb'
  obtain ⟨hc, hcov⟩ := h hn b hb
  exact ⟨hc.trans hf.head, fun q hq hqc hs =>
    hcov q hq hqc (hf.shown hlater.clock (hqc.trans hc) hs)⟩

end CovAt

variable {code : List WatchInstr}

theorem Ready.of_plain (h : ∀ i ∈ code, i.Plain) : Ready w base s bodies code := by
  cases code with
  | nil => trivial
  | cons i rest =>
    have hi := h i mem_cons_self
    have hrest : ∀ i ∈ rest, i.Plain := fun j hj => h j (mem_cons_of_mem i hj)
    cases i with
    | pass | visit | park => exact hrest
    | _ => exact hi.elim

theorem Ready.later (h : Ready w base s bodies code) (hlater : Later w s s') :
    Ready w base s' bodies code := by
  induction code generalizing bodies with
  | nil => trivial
  | cons i rest ih =>
    cases i with
    | diff => exact ⟨h.1.later hlater, h.2⟩
    | store => exact ⟨h.1.later hlater, ih h.2⟩
    | send => exact @ih _ h
    | _ => exact h

structure Aside (w : WatchSession) (t : Nat) (s s' : WatchState) : Prop where
  later : Later w s s'
  cursors : ∀ n, s'.cursors n ≤ s.cursors n
  sent : s'.sent t = s.sent t

theorem Cover.aside {G : List FrameBody} {t : Nat} (h : Cover w base G t s code)
    (ha : Aside w t s s') : Cover w base G t s' code := by
  refine ⟨fun n => ?_, ?_⟩
  · rw [ha.sent]
    exact ((h.cursors n).later ha.later).lower (ha.cursors n)
  · rw [ha.sent]
    exact h.ready.later ha.later

/-! ### A page -/

section Page

variable {name : String} {b : TopicState} {resolve : Nat → Value × Option Value}

section

variable (h : CovAt w base s bodies name c) (hb : s.topics name = some b)

include h hb

theorem CovAt.gapTo {gap : Tombstone}
    (hgap : b.diffTombstone { w.req with fromSeq := c } = some gap) :
    CovAt w base s bodies name gap.gapTo := by
  intro hn b' hb'
  cases hb.symm.trans hb'
  obtain ⟨hc, hcov⟩ := h hn b hb
  have hle : b.evictEarliestSeq ≤ b.headSeq + 1 := min_le_right _ _
  rcases diffTombstone_of_le w.req hc with ⟨t, ht, -, hto, -⟩ | ⟨hnone, -⟩
  · cases ht.symm.trans hgap
    refine ⟨by omega, fun q hq hqc hs => ?_⟩
    exact absurd hs (not_shown_of_lt_evictEarliestSeq (by omega))
  · rw [hnone] at hgap
    cases hgap

theorem CovAt.nextFromSeq (hsub : bodies ⊆ bodies')
    (hrecords : ∀ o ∈ (b.diff resolve { w.req with fromSeq := c } s.clock).records,
      ∃ body ∈ bodies', body.Hands name o.seq) :
    CovAt w base s bodies' name (b.diff resolve { w.req with fromSeq := c } s.clock).nextFromSeq := by
  intro hn b' hb'
  cases hb.symm.trans hb'
  obtain ⟨hc, hcov⟩ := h hn b hb
  refine ⟨(diff_le_headSeq _ _ _ hc).2, fun q hq hqc hs => ?_⟩
  by_cases hle : q ≤ c
  · obtain ⟨body, hmem, hhands⟩ := hcov q hq hle hs
    exact ⟨body, hsub hmem, hhands⟩
  · obtain ⟨o, ho, rfl⟩ := mem_diff_of_shown hs (not_le.mp hle) hqc
    exact hrecords o ho

/-- **A page**: whatever it holds, the stream may go on with it. -/
theorem ready_pageCode {d : DiffResponse}
    (hd : b.diff resolve { w.req with fromSeq := c } s.clock = d) (first : Bool)
    {rest : List WatchInstr} (hrest : ∀ i ∈ rest, i.Plain) :
    Ready w base s bodies (pageCode name c first d ++ rest) := by
  have htombstone : d.tombstone = b.diffTombstone { w.req with fromSeq := c } := by
    rw [← hd]
    rfl
  have hnext : ∀ {bodies bodies' : List FrameBody}, CovAt w base s bodies name c → bodies ⊆ bodies' →
      (∀ o ∈ d.records, ∃ body ∈ bodies', body.Hands name o.seq) →
      CovAt w base s bodies' name d.nextFromSeq := fun h hsub hrecords => by
    subst hd
    exact h.nextFromSeq hb hsub hrecords
  have hlast : ∀ bodies, Ready w base s bodies
      ([if d.caughtUp then .caughtUp name d.headSeq else .drain name] ++ rest) := fun bodies => by
    cases d.caughtUp with
    | true | false => exact hrest
  -- the second half, whatever the first one has sent
  have hsecond : ∀ {bodies : List FrameBody}, CovAt w base s bodies name c →
      Ready w base s bodies (recordCode name c d ++
        ([if d.caughtUp then .caughtUp name d.headSeq else .drain name] ++ rest)) := fun {bodies} h => by
    unfold recordCode
    cases hempty : d.records.isEmpty with
    | true =>
      simp only [if_true]
      split
      · refine ⟨hnext h (subset_append_left _ _) fun o ho => ?_, hlast _⟩
        rw [isEmpty_iff.mp hempty] at ho
        cases ho
      · exact hlast _
    | false =>
      simp only [Bool.false_eq_true, if_false]
      refine ⟨hnext h (subset_append_left _ _) fun o ho => ?_, hlast _⟩
      exact ⟨_, mem_append_right _ (mem_singleton_self _), rfl, o, ho, rfl⟩
  unfold pageCode tombstoneCode
  rw [append_assoc, append_assoc]
  cases hgap : d.tombstone with
  | none => exact hsecond h
  | some gap =>
    refine ⟨(h.gapTo hb (htombstone.symm.trans hgap)).mono (subset_append_left _ _), ?_⟩
    exact hsecond (h.mono (subset_append_left _ _))

end

end Page

/-! ### One step -/

section Step

variable {S : Serde Blob} {resolve : String → Nat → Value × Option Value} {G : List FrameBody}
  {t t' : Nat} {x : WatchInput} {i : WatchInstr} {rest : List WatchInstr}
  {o : Outcome WatchState WatchInstr}

/-- A state in which only the locals of the streams differ. -/
structure SameButLocals (s s' : WatchState) : Prop where
  topics : s'.topics = s.topics
  clock : s'.clock = s.clock
  cursors : s'.cursors = s.cursors
  sent : s'.sent = s.sent

theorem SameButLocals.refl (s : WatchState) : SameButLocals s s := ⟨rfl, rfl, rfl, rfl⟩

theorem SameButLocals.setLocals (s : WatchState) (t : Nat) (l : StreamLocals) :
    SameButLocals s (s.setLocals t l) := ⟨rfl, rfl, rfl, rfl⟩

variable {code : List WatchInstr}

theorem Cover.emitted (hs : SameButLocals s s') {body : FrameBody}
    (hcursors : ∀ n, CovAt w base s (G ++ (s.sent t).map WatchFrame.body ++ [body]) n (s.cursors n))
    (hready : Ready w base s (G ++ (s.sent t).map WatchFrame.body ++ [body]) code) :
    Cover w base G t (s'.emit t body) code := by
  have hsent : ((s'.emit t body).sent t).map WatchFrame.body =
      (s.sent t).map WatchFrame.body ++ [body] := by
    simp [emit, hs.sent]
  have hlater : Later w s (s'.emit t body) := .of_eq hs.topics hs.clock
  refine ⟨fun n => ?_, ?_⟩
  · rw [hsent, ← append_assoc, show (s'.emit t body).cursors = s.cursors from hs.cursors]
    exact ((hcursors n).later hlater).mono (subset_append_left _ _)
  · rw [hsent, ← append_assoc]
    exact hready.later hlater

theorem Cover.vanished (h : Cover w base G t s (i :: rest)) (hpending : pending (i :: rest) = [])
    (hs : SameButLocals s s') (hcode : ∀ j ∈ code, j.Plain) {body : FrameBody} :
    Cover w base G t (s'.emit t body) code := by
  refine .emitted hs (fun n => ?_) (.of_plain hcode)
  have hcov := h.cursors n
  rw [hpending, append_nil] at hcov
  exact hcov.mono (subset_append_left _ _)

theorem Cover.reads (h : Cover w base G t s (i :: rest)) (hpending : pending (i :: rest) = [])
    (hready : Ready w base s (G ++ (s.sent t).map WatchFrame.body) code) :
    Cover w base G t s code := by
  refine ⟨fun n => ?_, hready⟩
  have hcov := h.cursors n
  rw [hpending, append_nil] at hcov
  exact hcov.mono (subset_append_left _ _)

/-- **The stream itself.** -/
theorem Cover.own (h : Cover w base G t s (i :: rest)) (hsem : sem S resolve w s t x i = some o) :
    Cover w base G t o.shared (o.code rest) := by
  cases i with
  | rewind | engine | receive => exact h.ready.elim
  | pass =>
    simp only [sem] at hsem
    split at hsem
    · cases hsem
      refine h.reads rfl (.of_plain fun j hj => ?_)
      rcases mem_append.mp hj with hj | hj
      · rcases mem_append.mp hj with hj | hj
        · obtain ⟨name, -, rfl⟩ := mem_map.mp hj
          trivial
        · cases mem_singleton.mp hj
          trivial
      · exact h.ready j hj
    · cases hsem
      exact h.vanished rfl (.refl s) (forall_mem_nil _)
  | visit name =>
    simp only [sem] at hsem
    split at hsem
    · cases hsem
      exact h.reads rfl (.of_plain h.ready)
    · split at hsem
      · cases hsem
        exact h.vanished rfl (.setLocals s t _) h.ready
      · cases hsem
        exact h.reads rfl h.ready
  | drain name =>
    cases hsem
    have hcov := h.cursors name
    rw [show pending (.drain name :: rest) = [] from rfl, append_nil] at hcov
    exact h.reads rfl ⟨hcov, h.ready⟩
  | diff name c =>
    obtain ⟨hcov, hrest⟩ := h.ready
    simp only [sem] at hsem
    split at hsem
    · cases hsem
      exact h.vanished rfl (.setLocals s t _) hrest
    · rename_i b hb
      split at hsem
      · obtain ⟨hclock, ⟨⟩⟩ := ite_none_right_eq_some.mp hsem
        -- the topic is retained, then read
        have hfades := TopicState.Fades.enforceRetention b x.now
        have hlater : ∀ s', s'.topics =
            Function.update s.topics name (some (b.enforceRetention x.now)) → s'.clock = x.now →
            Later w s s' := fun s' htopics hnow => .update hb hfades hclock htopics hnow
        refine ⟨fun n => ?_, ?_⟩
        · have hcur := h.cursors n
          rw [show pending (.diff name c :: rest) = [] from rfl, append_nil] at hcur
          exact (hcur.later (hlater _ rfl rfl)).mono (subset_append_left _ _)
        · refine ready_pageCode (hcov.later (hlater _ rfl rfl)) ?_ rfl _ hrest
          exact Function.update_self name _ s.topics
      · cases hsem
        exact h.vanished rfl (.setLocals s t _) hrest
  | store name c =>
    cases hsem
    obtain ⟨hcov, hready⟩ := h.ready
    have hlater : Later w s { s with cursors := Function.update s.cursors name c } := .of_eq rfl rfl
    refine ⟨fun n => ?_, hready.later hlater⟩
    by_cases hn : n = name
    · subst hn
      simp only [shared_next, Function.update_self]
      exact hcov.later hlater
    · have hcur := h.cursors n
      rw [show pending (.store name c :: rest) = [] from rfl, append_nil] at hcur
      simp only [shared_next, Function.update_of_ne hn]
      exact (hcur.later hlater).mono (subset_append_left _ _)
  | send name body =>
    cases hsem
    exact .emitted (.setLocals s t _) h.cursors h.ready
  | caughtUp name headSeq =>
    simp only [sem] at hsem
    split at hsem
    · cases hsem
      exact h.reads rfl (.of_plain h.ready)
    · cases hsem
      exact h.vanished rfl (.setLocals s t _) h.ready
  | park =>
    simp only [sem] at hsem
    split at hsem
    · cases hsem
      exact h.reads rfl trivial
    · cases hsem
      exact h.reads rfl h.ready

theorem later_of_sem (hl : Leveled s) (hop : ∀ op, i = .engine op → op.Spares w)
    (hsem : sem S resolve w s t x i = some o) : Later w s o.shared := by
  cases i with
  | diff name c =>
    simp only [sem] at hsem
    split at hsem
    · cases hsem
      exact .of_eq rfl rfl
    · rename_i b hb
      split at hsem
      · obtain ⟨hclock, ⟨⟩⟩ := ite_none_right_eq_some.mp hsem
        exact .update hb (.enforceRetention b x.now) hclock rfl rfl
      · cases hsem
        exact .of_eq rfl rfl
  | engine op =>
    obtain ⟨s', hs', rfl⟩ := map_eq_some_iff.mp hsem
    exact (later_engine hl (hop op rfl) hs').1
  | pass | visit | caughtUp | park | receive =>
    simp only [sem] at hsem
    (repeat' split at hsem) <;> first | (cases hsem; exact .of_eq rfl rfl) | cases hsem
  | _ =>
    cases hsem
    exact .of_eq rfl rfl

/-- What the other threads may do: they do not raise a cursor, and do not create a topic of the
session again. -/
def Tame (w : WatchSession) (s : WatchState) : WatchInstr → Prop
  | .store name c => c ≤ s.cursors name
  | .engine op => op.Spares w
  | _ => True

instance (w : WatchSession) (s : WatchState) (i : WatchInstr) : Decidable (Tame w s i) := by
  unfold Tame
  split <;> infer_instance

theorem sent_of_sem (ht : t' ≠ t) (hl : Leveled s) (hop : ∀ op, i = .engine op → op.Spares w)
    (hsem : sem S resolve w s t' x i = some o) : o.shared.sent t = s.sent t := by
  have hne : t ≠ t' := ht.symm
  cases i with
  | engine op =>
    obtain ⟨s', hs', rfl⟩ := map_eq_some_iff.mp hsem
    exact congrFun (later_engine hl (hop op rfl) hs').2.2.1 t
  | pass | visit | diff | caughtUp | park | receive =>
    simp only [sem] at hsem
    (repeat' split at hsem) <;> first
      | (cases hsem; simp [vanish, emit, setLocals, Function.update_of_ne hne])
      | cases hsem
  | _ =>
    cases hsem
    simp [emit, setLocals, Function.update_of_ne hne]

/-- **Beside the stream.** -/
theorem aside_of_sem (hl : Leveled s) (htame : Tame w s i) (ht : t' ≠ t)
    (hsem : sem S resolve w s t' x i = some o) : Aside w t s o.shared := by
  have hop : ∀ op, i = .engine op → op.Spares w := by
    rintro op rfl
    exact htame
  refine ⟨later_of_sem hl hop hsem, fun n => ?_, sent_of_sem ht hl hop hsem⟩
  cases i with
  | rewind id =>
    cases hsem
    simp only [shared_next]
    split
    · cases id n with
      | none => exact le_rfl
      | some q => exact min_le_left _ _
    · exact le_rfl
  | store name c =>
    cases hsem
    simp only [shared_next]
    by_cases hn : n = name
    · subst hn
      rw [Function.update_self]
      exact htame
    · rw [Function.update_of_ne hn]
  | engine op =>
    obtain ⟨s', hs', rfl⟩ := map_eq_some_iff.mp hsem
    exact (congrFun (later_engine hl htame hs').2.1 n).le
  | pass | visit | diff | caughtUp | park | receive =>
    simp only [sem] at hsem
    (repeat' split at hsem) <;> first | (cases hsem; exact le_rfl) | cases hsem
  | _ =>
    cases hsem
    exact le_rfl

theorem leveled_of_sem (hl : Leveled s) (hsem : sem S resolve w s t x i = some o) :
    Leveled o.shared := by
  cases i with
  | diff name c =>
    simp only [sem] at hsem
    split at hsem
    · cases hsem
      exact hl
    · rename_i b hb
      split at hsem
      · obtain ⟨-, ⟨⟩⟩ := ite_none_right_eq_some.mp hsem
        intro n b' hb'
        by_cases hn : n = name
        · subst hn
          cases (Function.update_self n _ s.topics).symm.trans hb'
          exact (TopicState.Fades.enforceRetention b x.now).level (hl n b hb)
        · exact hl n b' ((Function.update_of_ne hn _ s.topics).symm.trans hb')
      · cases hsem
        exact hl
  | engine op =>
    obtain ⟨s', hs', rfl⟩ := map_eq_some_iff.mp hsem
    exact leveled_engine hl hs'
  | pass | visit | caughtUp | park | receive =>
    simp only [sem] at hsem
    (repeat' split at hsem) <;> first | (cases hsem; exact hl) | cases hsem
  | _ =>
    cases hsem
    exact hl

end Step

end Cover

end WatchState

end Topics
