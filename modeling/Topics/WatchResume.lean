import Topics.WatchDrain

/-!
# Resuming a watch stream

The id of a frame is the cursor map at the moment it was sent, and a stream that is opened with it
takes the session's cursors back to it.
-/

namespace Topics

open Lib List Outcome

namespace WatchState

variable {Blob : Type} {S : Serde Blob} {resolve : String → Nat → Value × Option Value}
  {w : WatchSession}

variable {s s' : Threads WatchState WatchInstr} {a : ThreadAction WatchCall WatchInput}
  {base : Cursors} {t : Nat}

theorem leveled_step (hl : Leveled s.shared) (hstep : step S resolve w s a = some s') :
    Leveled s'.shared := by
  rcases Threads.step_cases _ _ hstep with ⟨t, c, -, -, rfl⟩ | ⟨t, x, i, rest, o, -, -, hsem, rfl⟩
  · exact hl
  · exact leveled_of_sem hl hsem

theorem tells_of_cover {G : List FrameBody} (hcover : Cover w base G t s.shared (s.code t))
    (htop : s.code t = [.pass]) {now : Int} (hnow : s.shared.clock ≤ now) :
    ∃ k s', exec (step S resolve w) s (List.replicate k (.run t ⟨now, true⟩)) = some s' ∧
      ∀ n ∈ w.names, n ∉ (s.shared.locals t).deleted → ∀ b, s.shared.topics n = some b → ∀ q,
        base n < q → b.Shown w.req now q →
          (∃ body ∈ G, body.Hands n q) ∨ ∃ f ∈ s'.shared.sent t, f.body.Tells n q := by
  rw [htop] at hcover
  have hcov : ∀ n, CovAt w base s.shared (G ++ (s.shared.sent t).map WatchFrame.body) n
      (s.shared.cursors n) := fun n => by
    have := hcover.cursors n
    rwa [show pending [.pass] = [] from rfl, append_nil] at this
  obtain ⟨s', more, hsolo, hsent, htells⟩ := @pass_tells _ S resolve w t now s.shared hnow
    fun n hn b hb => (hcov n hn b hb).1
  rw [← htop] at hsolo
  obtain ⟨k, hk⟩ := exec_of_solo hsolo
  refine ⟨k, _, hk, fun n hn hlive b hb q hq hs => ?_⟩
  simp only [hsent]
  by_cases hle : q ≤ s.shared.cursors n
  · have hs' : b.Shown w.req s.shared.clock q :=
      (TopicState.Fades.refl b).shown hnow (hs.elim fun _ h => h.1.head) hs
    obtain ⟨body, hmem, hhands⟩ := (hcov n hn b hb).2 q hq hle hs'
    rcases mem_append.mp hmem with hmem | hmem
    · exact .inl ⟨body, hmem, hhands⟩
    · obtain ⟨f, hf, rfl⟩ := mem_map.mp hmem
      exact .inr ⟨f, mem_append_left _ hf, hhands.tells⟩
  · obtain ⟨f, hf, htold⟩ := htells n hn hlive b hb q (not_le.mp hle) hs
    exact .inr ⟨f, mem_append_right _ hf, htold⟩

/-! ## Several streams -/

/-- **Condition**: the other streams do not raise a cursor, no topic of the session is created
again, and the stream keeps its thread. -/
def Beside (w : WatchSession) (t : Nat) (s : Threads WatchState WatchInstr) :
    ThreadAction WatchCall WatchInput → Prop
  | .start t' _ => t' ≠ t
  | .run t' _ => t' = t ∨ ∀ i ∈ (s.code t').head?, Tame w s.shared i

instance (w : WatchSession) (t : Nat) (s : Threads WatchState WatchInstr)
    (a : ThreadAction WatchCall WatchInput) : Decidable (Beside w t s a) := by
  unfold Beside
  split <;> infer_instance

theorem cover_step (hl : Leveled s.shared) (h : Cover w base [] t s.shared (s.code t))
    (hbeside : Beside w t s a) (hstep : step S resolve w s a = some s') :
    Cover w base [] t s'.shared (s'.code t) := by
  rcases Threads.step_cases _ _ hstep with
    ⟨t', c, rfl, hcode, rfl⟩ | ⟨t', x, i, rest, o, rfl, hcode, hsem, rfl⟩
  · simp only [Function.update_of_ne (Ne.symm hbeside)]
    exact h
  · by_cases ht : t' = t
    · subst ht
      rw [hcode] at h
      simp only [Function.update_self]
      exact h.own hsem
    · have htame : Tame w s.shared i := hbeside.resolve_left ht i (by rw [hcode]; rfl)
      simp only [Function.update_of_ne (Ne.symm ht)]
      exact h.aside (aside_of_sem hl htame ht hsem)

def watchA : WatchSession := ⟨["a"], {}, by decide⟩

/-- Steps of thread `t` at time 0, all of which succeed. -/
def runsAt (t n : Nat) : List (ThreadAction WatchCall WatchInput) := List.replicate n (.run t ⟨0, true⟩)

def callOn (t : Nat) (op : WatchOp) : List (ThreadAction WatchCall WatchInput) :=
  .start t (.engine op) :: runsAt t 1

def blankWrite (n : Nat) : TopicCall := .write (List.replicate n ⟨none, none, .null, none⟩) 0

/-- A topic with two records, and a stream that has read them but not yet stored its cursor. -/
def pageInFlight : List (ThreadAction WatchCall WatchInput) :=
  callOn 9 (.create ⟨"a", 1, {}, 0⟩) ++ callOn 9 (.on "a" (blankWrite 2)) ++
    .start 1 (.open fun _ => none) :: runsAt 1 5

/-- The old stream finishes its page; the new one is opened at cursor 0. -/
def openedBehindPage : List (ThreadAction WatchCall WatchInput) :=
  pageInFlight ++ runsAt 1 5 ++ [.start 2 (.open fun _ => some 0)]

/-- The new stream catches up, the old one stores the same cursor, and a record is written. -/
def bothCaughtUp : List (ThreadAction WatchCall WatchInput) :=
  runsAt 2 8 ++ runsAt 1 4 ++ callOn 9 (.on "a" (blankWrite 1))

section Single

variable {base : Cursors} {G : List FrameBody} {s : WatchState} {t : Nat} {x : WatchInput}
  {i : WatchInstr} {rest : List WatchInstr} {o : Outcome WatchState WatchInstr}

theorem Cover.emits (h : Cover w base G t s (i :: rest)) (hsem : sem S resolve w s t x i = some o) :
    o.shared.sent t = s.sent t ∨ ∃ f : WatchFrame, o.shared.sent t = s.sent t ++ [f] ∧
      f.id = s.cursors ∧
      ∀ n, CovAt w base s (G ++ (s.sent t).map WatchFrame.body ++ [f.body]) n (s.cursors n) := by
  have hquiet : pending (i :: rest) = [] → ∀ body n,
      CovAt w base s (G ++ (s.sent t).map WatchFrame.body ++ [body]) n (s.cursors n) :=
    fun hpending body n => by
      have hcov := h.cursors n
      rw [hpending, append_nil] at hcov
      exact hcov.mono (subset_append_left _ _)
  cases i with
  | rewind | engine | receive => exact h.ready.elim
  | send name body =>
    cases hsem
    exact .inr ⟨⟨s.cursors, body⟩, by simp [emit, setLocals], rfl, h.cursors⟩
  | pass | visit | diff | caughtUp | park =>
    simp only [sem] at hsem
    (repeat' split at hsem) <;> first
      | (cases hsem; exact .inl rfl)
      | (cases hsem
         exact .inr ⟨⟨s.cursors, _⟩, by simp [vanish, emit, setLocals]; rfl, rfl, hquiet rfl _⟩)
      | cases hsem
  | drain | store =>
    cases hsem
    exact .inl rfl

/-- A stream is opened by the first instruction of its code. -/
def Opening (code : List WatchInstr) : Prop :=
  (∃ id, code = [.rewind id, .pass]) ∨ ∀ id, .rewind id ∉ code

theorem Opening.body (c : WatchCall) : Opening c.body := by
  cases c with
  | «open» id => exact .inl ⟨id, rfl⟩
  | engine | receive => exact .inr fun id hid => by cases mem_singleton.mp hid

theorem rewind_notMem_pageCode (name : String) (fromSeq : Nat) (first : Bool) (d : DiffResponse)
    (id : String → Option Nat) : .rewind id ∉ pageCode name fromSeq first d := by
  simp only [pageCode, tombstoneCode, recordCode, mem_append, mem_singleton]
  rintro ((hmem | hmem) | hmem)
  · split at hmem <;> simp at hmem
  · (repeat' split at hmem) <;> simp at hmem
  · split at hmem <;> cases hmem

theorem Opening.sem (h : Opening (i :: rest)) (hsem : sem S resolve w s t x i = some o) :
    Opening (o.code rest) := by
  rcases h with ⟨id, heq⟩ | hno
  · cases heq
    cases hsem
    exact .inr fun id hid => by cases mem_singleton.mp hid
  · refine .inr fun id hid => ?_
    have hrest : .rewind id ∉ rest := fun hmem => hno id (mem_cons_of_mem _ hmem)
    have hmore : ∀ s₁ more, o = .next s₁ more → .rewind id ∉ more → False := by
      rintro s₁ more rfl hmore
      exact (mem_append.mp hid).elim hmore hrest
    cases i with
    | rewind id => exact hno id mem_cons_self
    | engine op =>
      obtain ⟨s₁, -, rfl⟩ := Option.map_eq_some_iff.mp hsem
      exact hrest hid
    | pass | visit | diff | caughtUp | park | receive =>
      simp only [WatchState.sem] at hsem
      (repeat' split at hsem) <;> first
        | (cases hsem; exact hmore _ _ rfl (rewind_notMem_pageCode _ _ _ _ id))
        | (cases hsem; exact hmore _ _ rfl (by simp))
        | (cases hsem; cases hid)
        | cases hsem
    | drain | store | send =>
      cases hsem
      exact hmore _ _ rfl (by simp)

theorem history_of_sem (hready : Ready w base s G (i :: rest))
    (hsem : sem S resolve w s t x i = some o) :
    o.shared.current = s.current ∧ o.shared.prior = s.prior ∧ o.shared.got = s.got := by
  cases i with
  | rewind | engine | receive => exact hready.elim
  | pass | visit | diff | caughtUp | park =>
    simp only [sem] at hsem
    (repeat' split at hsem) <;> first | (cases hsem; exact ⟨rfl, rfl, rfl⟩) | cases hsem
  | _ =>
    cases hsem
    exact ⟨rfl, rfl, rfl⟩

end Single

/-- One stream at a time: a stream is opened with the id of the last frame that reached the client,
and from then on only that stream runs. -/
def Resumes (w : WatchSession) (s : WatchState) (t : Nat) : WatchInstr → Prop
  | .rewind id => s.current = none ∨ ∃ f ∈ s.received.getLast?, ∀ n ∈ w.names, id n = some (f.id n)
  | .engine op => op.Spares w
  | .receive => True
  | _ => s.current = some t

instance (w : WatchSession) (s : WatchState) (t : Nat) : ∀ i, Decidable (Resumes w s t i)
  | .rewind id => inferInstanceAs (Decidable
      (s.current = none ∨ ∃ f ∈ s.received.getLast?, ∀ n ∈ w.names, id n = some (f.id n)))
  | .engine op => inferInstanceAs (Decidable (op.Spares w))
  | .receive => isTrue trivial
  | .pass | .visit _ | .drain _ | .diff .. | .store .. | .send .. | .caughtUp .. | .park =>
    inferInstanceAs (Decidable (s.current = some t))

/-- **Condition** on a run with one stream at a time: no topic of the session is created again. -/
def OneAtATime (w : WatchSession) (s : Threads WatchState WatchInstr) :
    ThreadAction WatchCall WatchInput → Prop
  | .start t _ => s.shared.current ≠ some t
  | .run t _ => ∀ i ∈ (s.code t).head?, Resumes w s.shared t i

instance (w : WatchSession) (s : Threads WatchState WatchInstr)
    (a : ThreadAction WatchCall WatchInput) : Decidable (OneAtATime w s a) := by
  unfold OneAtATime
  split <;> infer_instance

/-- Every prefix of the frames covers the cursors in the id of its last one. -/
structure Resumable (w : WatchSession) (base : Cursors) (s : Threads WatchState WatchInstr) :
    Prop where
  leveled : Leveled s.shared
  opening : ∀ t, Opening (s.code t)
  idle : s.shared.current = none → s.shared.prior = [] ∧
    ∀ n, CovAt w base s.shared [] n (s.shared.cursors n)
  stream : ∀ t, s.shared.current = some t →
    Cover w base (s.shared.prior.map WatchFrame.body) t s.shared (s.code t)
  prefixes : ∀ t, s.shared.current = some t → ∀ k f,
    (s.shared.prior ++ (s.shared.sent t).take k).getLast? = some f → ∀ n,
      CovAt w base s.shared ((s.shared.prior ++ (s.shared.sent t).take k).map WatchFrame.body) n (f.id n)

theorem opening_update {code : Nat → List WatchInstr} (h : ∀ t, Opening (code t))
    {own : List WatchInstr} (hown : Opening own) (t' : Nat) :
    Opening (Function.update code t own t') := by
  by_cases ht : t' = t
  · subst ht
    rwa [Function.update_self]
  · rw [Function.update_of_ne ht]
    exact h t'

namespace Resumable

variable {base : Cursors} {s s' : Threads WatchState WatchInstr}

variable {f : WatchFrame} {code : Nat → List WatchInstr} {t : Nat}

theorem received (h : Resumable w base s) (hf : s.shared.received.getLast? = some f) (n : String) :
    CovAt w base s.shared (s.shared.received.map WatchFrame.body) n (f.id n) := by
  cases hcur : s.shared.current with
  | none =>
    have hnil : s.shared.received = [] := by
      rw [WatchState.received, hcur, (h.idle hcur).1]
      rfl
    rw [hnil] at hf
    cases hf
  | some t =>
    have hrec : s.shared.received = s.shared.prior ++ (s.shared.sent t).take s.shared.got := by
      rw [WatchState.received, hcur]
      rfl
    rw [hrec] at hf ⊢
    exact h.prefixes t hcur _ f hf n

theorem aside (h : Resumable w base s) {s₁ : WatchState} (hl : Leveled s₁)
    (hlater : Later w s.shared s₁) (hcursors : s₁.cursors = s.shared.cursors)
    (hsent : s₁.sent = s.shared.sent) (hcurrent : s₁.current = s.shared.current)
    (hprior : s₁.prior = s.shared.prior) (hopening : ∀ t, Opening (code t))
    (hcode : ∀ t, s.shared.current = some t → code t = s.code t) : Resumable w base ⟨s₁, code⟩ := by
  refine ⟨hl, hopening, fun hcur => ?_, fun t hcur => ?_, fun t hcur k f hf n => ?_⟩
  · simp only [hcurrent] at hcur
    obtain ⟨hnil, hcov⟩ := h.idle hcur
    refine ⟨hprior.trans hnil, fun n => ?_⟩
    simp only [hcursors]
    exact (hcov n).later hlater
  · simp only [hcurrent] at hcur
    simp only [hprior, hcode t hcur]
    exact (h.stream t hcur).aside ⟨hlater, fun n => (congrFun hcursors n).le, congrFun hsent t⟩
  · simp only [hcurrent] at hcur
    simp only [hprior, hsent] at hf ⊢
    exact (h.prefixes t hcur k f hf n).later hlater

theorem opened (h : Resumable w base s) {id : String → Option Nat}
    (hid : Resumes w s.shared t (.rewind id)) {x : WatchInput} {o : Outcome WatchState WatchInstr}
    (hsem : sem S resolve w s.shared t x (.rewind id) = some o) (hcode : code t = [.pass])
    (hopening : ∀ t, Opening (code t)) : Resumable w base ⟨o.shared, code⟩ := by
  have hl := leveled_of_sem h.leveled hsem
  cases hsem
  have hcov : ∀ n, n ∈ w.names → CovAt w base s.shared (s.shared.received.map WatchFrame.body) n
      (((id n).map (min (s.shared.cursors n))).getD (s.shared.cursors n)) := fun n hn => by
    rcases hid with hnone | ⟨f, hf, hid⟩
    · obtain ⟨hnil, hcov⟩ := h.idle hnone
      refine ((hcov n).lower ?_).mono (nil_subset _)
      cases id n with
      | none => exact le_rfl
      | some q => exact min_le_left _ _
    · rw [hid n hn]
      exact (h.received hf n).lower (min_le_right _ _)
  refine ⟨hl, hopening, nofun, fun t' hcur => ?_, fun t' hcur k f hf n => ?_⟩
  · cases hcur
    refine ⟨fun n hn => ?_, ?_⟩
    · simp only [shared_next, Function.update_self, map_nil, append_nil, if_pos hn,
        hcode, pending]
      exact hcov n hn hn
    · simp only [hcode]
      exact forall_mem_nil _
  · cases hcur
    simp only [shared_next, Function.update_self, take_nil, append_nil] at hf ⊢
    exact h.received hf n

/-- **One step.** -/
theorem step (h : Resumable w base s) {a : ThreadAction WatchCall WatchInput}
    (hcond : OneAtATime w s a) (hstep : WatchState.step S resolve w s a = some s') :
    Resumable w base s' := by
  rcases Threads.step_cases _ _ hstep with
    ⟨t, c, rfl, hcode, rfl⟩ | ⟨t, x, i, rest, o, rfl, hcode, hsem, rfl⟩
  · refine h.aside h.leveled (.of_eq rfl rfl) rfl rfl rfl rfl (opening_update h.opening (.body c))
      fun t' hcur => ?_
    refine Function.update_of_ne ?_ _ _
    rintro rfl
    exact hcond hcur
  · have hi : Resumes w s.shared t i := hcond i (by rw [hcode]; rfl)
    have hl := leveled_of_sem h.leveled hsem
    have hopening : ∀ t', Opening (Function.update s.code t (o.code rest) t') :=
      opening_update h.opening (Opening.sem (hcode ▸ h.opening t) hsem)
    -- a thread that is not a stream does not run the current stream's code
    have hother : (∀ G, ¬ Ready w base s.shared G (i :: rest)) → ∀ t', s.shared.current = some t' →
        Function.update s.code t (o.code rest) t' = s.code t' := fun hno t' hcur => by
      refine Function.update_of_ne (fun heq => ?_) _ _
      subst heq
      have hready := (h.stream t' hcur).ready
      rw [hcode] at hready
      exact hno _ hready
    cases i with
    | rewind id =>
      refine h.opened hi hsem ?_ hopening
      rw [Function.update_self]
      cases hsem
      rcases hcode ▸ h.opening t with ⟨id, heq⟩ | hno
      · cases heq
        rfl
      · exact absurd mem_cons_self (hno id)
    | engine op =>
      obtain ⟨s₁, hs₁, rfl⟩ := Option.map_eq_some_iff.mp hsem
      obtain ⟨hlater, hcursors, hsent, hcurrent, hprior, -⟩ := later_engine h.leveled hi hs₁
      exact h.aside hl hlater hcursors hsent hcurrent hprior hopening (hother fun _ => id)
    | receive =>
      simp only [sem] at hsem
      split at hsem
      · cases hsem
      · split at hsem
        · cases hsem
          exact h.aside hl (.of_eq rfl rfl) rfl rfl rfl rfl hopening (hother fun _ => id)
        · cases hsem
    | _ =>
      -- the current stream
      have hcur : s.shared.current = some t := hi
      have hcover := h.stream t hcur
      rw [hcode] at hcover
      obtain ⟨hcurrent, hprior, -⟩ := history_of_sem hcover.ready hsem
      have hlater := later_of_sem h.leveled (fun op hop => by cases hop) hsem
      refine ⟨hl, hopening, fun hnone => ?_, fun t' hcur' => ?_, fun t' hcur' k f hf n => ?_⟩
      · simp only [hcurrent, hcur] at hnone
        cases hnone
      · simp only [hcurrent, hcur] at hcur'
        cases hcur'
        simp only [hprior, Function.update_self]
        exact hcover.own hsem
      · simp only [hcurrent, hcur] at hcur'
        cases hcur'
        simp only [hprior] at hf ⊢
        refine CovAt.later ?_ hlater
        rcases hcover.emits hsem with hsame | ⟨g, hsent, hid, hcov⟩
        · rw [hsame] at hf ⊢
          exact h.prefixes t hcur k f hf n
        · rw [hsent] at hf ⊢
          by_cases hk : k ≤ (s.shared.sent t).length
          · rw [take_append_of_le_length hk] at hf ⊢
            exact h.prefixes t hcur k f hf n
          · -- the prefix ends in the frame that was just sent
            have hlong : (s.shared.sent t ++ [g]).length ≤ k := by
              rw [length_append, length_singleton]
              omega
            rw [take_of_length_le hlong, ← append_assoc] at hf ⊢
            rw [getLast?_concat] at hf
            cases hf
            rw [hid, map_append, map_append]
            exact hcov n

variable (S resolve) in
theorem reopened (h : Resumable w base s) (hlast : s.shared.received.getLast? = some f)
    (hfree : s.code t = []) (hnew : s.shared.current ≠ some t) (x : WatchInput) :
    ∃ s₁ s₂, WatchState.step S resolve w s (.start t (.open fun n => some (f.id n))) = some s₁ ∧
      WatchState.step S resolve w s₁ (.run t x) = some s₂ ∧ Resumable w base s₂ ∧
      s₂.code t = [.pass] ∧ s₂.shared.current = some t ∧ s₂.shared.prior = s.shared.received ∧
      (s₂.shared.locals t).deleted = [] ∧ s₂.shared.topics = s.shared.topics ∧
      s₂.shared.clock = s.shared.clock := by
  let id : String → Option Nat := fun n => some (f.id n)
  let s₁ : Threads WatchState WatchInstr :=
    ⟨s.shared, Function.update s.code t [.rewind id, .pass]⟩
  have hcode : s₁.code t = [.rewind id, .pass] := Function.update_self ..
  have hstart : WatchState.step S resolve w s (.start t (.open id)) = some s₁ := by
    simp only [WatchState.step, Threads.step, hfree]
    rfl
  have hother : OneAtATime w s (.start t (.open id)) := hnew
  have h₁ := h.step hother hstart
  obtain ⟨s₂, hs₂⟩ : ∃ s₂, WatchState.step S resolve w s₁ (.run t x) = some s₂ := by
    simp only [WatchState.step, Threads.step, hcode]
    exact ⟨_, rfl⟩
  have hresumes : OneAtATime w s₁ (.run t x) := by
    intro i hi
    rw [hcode] at hi
    cases hi
    exact .inr ⟨f, hlast, fun _ _ => rfl⟩
  have h₂ := h₁.step hresumes hs₂
  simp only [WatchState.step, Threads.step, hcode] at hs₂
  refine ⟨s₁, s₂, hstart, ?_, h₂, ?_⟩
  · simp only [WatchState.step, Threads.step, hcode]
    exact hs₂
  · cases hs₂
    exact ⟨Function.update_self .., rfl, rfl, by simp only [shared_next, Function.update_self],
      rfl, rfl⟩

end Resumable

theorem engine_history {cursors : Cursors} {clock : Int} {ops : List WatchOp} {s : WatchState}
    (hops : exec (engine S) (init (fun _ => none) cursors clock) ops = some s) :
    Leveled s ∧ s.cursors = cursors ∧ s.current = none ∧ s.prior = [] := by
  refine exec_invariant (engine S)
    (I := fun s => Leveled s ∧ s.cursors = cursors ∧ s.current = none ∧ s.prior = [])
    (fun s op s' h hs => ?_) ⟨fun n b hb => (by cases hb), rfl, rfl, rfl⟩ hops
  obtain ⟨hl, hcursors, hcurrent, hprior⟩ := h
  -- no topic belongs to the empty session
  have hspares : op.Spares ⟨[], {}, nodup_nil⟩ := by
    cases op with
    | create spec => exact not_mem_nil
    | on | remove => trivial
  obtain ⟨-, hc, -, hcur, hp, -⟩ := later_engine hl hspares hs
  exact ⟨leveled_engine hl hs, hc.trans hcursors, hcur.trans hcurrent, hp.trans hprior⟩

def receiveOne : List (ThreadAction WatchCall WatchInput) := .start 8 .receive :: runsAt 8 1

/-- Two records reach the client; a third is sent, but the stream is cut. -/
def cutBehindTwo : List (ThreadAction WatchCall WatchInput) :=
  .start 1 (.open fun _ => none) :: runsAt 1 9 ++ receiveOne ++ callOn 9 (.on "a" (blankWrite 1)) ++
    runsAt 1 6

/-- The client is caught up at 2 with an instance of the topic whose records were all deleted; then
the topic is created again, and gets two records. -/
def recreatedToCursor : List (ThreadAction WatchCall WatchInput) :=
  callOn 9 (.create ⟨"a", 1, {}, 0⟩) ++ callOn 9 (.on "a" (blankWrite 2)) ++
    callOn 9 (.on "a" (.delete (some 3) none 0)) ++ .start 1 (.open fun _ => none) :: runsAt 1 8 ++
    receiveOne ++ callOn 9 (.remove "a") ++ callOn 9 (.create ⟨"a", 1, {}, 0⟩) ++
    callOn 9 (.on "a" (blankWrite 2))

end WatchState

end Topics
