import Mathlib.Logic.Relation
import Topics.Watch

/-!
# A pass of a watch stream

From the top of its loop, a stream that runs on its own visits every topic and reads it up to the
head.  Whatever was shown above the cursors when the pass began is then in one of its frames, or
covered by a tombstone.
-/

namespace Topics

open Lib TopicState Function List

namespace WatchState

variable {Blob : Type}

section Solo

variable (S : Serde Blob) (resolve : String → Nat → Value × Option Value) (w : WatchSession)
  (t : Nat) (x : WatchInput)

/-- One step of stream `t`: the state and the code it has left. -/
def soloStep (p p' : WatchState × List WatchInstr) : Prop :=
  ∃ i rest o, p.2 = i :: rest ∧ sem S resolve w p.1 t x i = some o ∧ p' = (o.shared, o.code rest)

/-- Stream `t` runs, and nothing else does. -/
abbrev Solo := Relation.ReflTransGen (soloStep S resolve w t x)

variable {S resolve w t x}

theorem solo_step {s s' s₁ : WatchState} {i : WatchInstr} {rest code more : List WatchInstr}
    (hsem : sem S resolve w s t x i = some (.next s₁ more))
    (h : Solo S resolve w t x (s₁, more ++ rest) (s', code)) :
    Solo S resolve w t x (s, i :: rest) (s', code) :=
  .head ⟨i, rest, .next s₁ more, rfl, hsem, rfl⟩ h

theorem exec_of_solo {s : Threads WatchState WatchInstr} {s' : WatchState} {code : List WatchInstr}
    (h : Solo S resolve w t x (s.shared, s.code t) (s', code)) :
    ∃ k, exec (step S resolve w) s (List.replicate k (.run t x)) =
      some ⟨s', update s.code t code⟩ := by
  generalize hp : (s.shared, s.code t) = p at h
  generalize hp' : (s', code) = p' at h
  induction h using Relation.ReflTransGen.head_induction_on generalizing s with
  | refl =>
    refine ⟨0, ?_⟩
    cases hp.trans hp'.symm
    simp [update_eq_self]
  | head hstep _ ih =>
    obtain ⟨i, rest, o, hcode, hsem, rfl⟩ := hstep
    cases hp
    simp only at hcode hsem
    obtain ⟨k, hk⟩ := @ih ⟨o.shared, update s.code t (o.code rest)⟩ (by simp)
    refine ⟨k + 1, ?_⟩
    simp only [update_idem] at hk
    rw [replicate_succ, exec]
    simp only [Threads.step, hcode, hsem, Option.map_some, Option.bind_some]
    exact hk

/-! ## One page -/

/-- The stream goes on with one topic: it sends `more`, and touches no other cursor. -/
structure Onward (t : Nat) (name : String) (more : List WatchFrame) (s s' : WatchState) : Prop where
  cursors : ∀ n, n ≠ name → s'.cursors n = s.cursors n
  deleted : (s'.locals t).deleted = (s.locals t).deleted
  sent : s'.sent t = s.sent t ++ more

theorem Onward.trans {name : String} {more more' : List WatchFrame} {s s₁ s' : WatchState}
    (h : Onward t name more s s₁) (h' : Onward t name more' s₁ s') :
    Onward t name (more ++ more') s s' :=
  ⟨fun n hn => (h'.cursors n hn).trans (h.cursors n hn), h'.deleted.trans h.deleted, by
    rw [h'.sent, h.sent, append_assoc]⟩

theorem Onward.refl (t : Nat) (name : String) (s : WatchState) : Onward t name [] s s :=
  ⟨fun _ _ => rfl, rfl, (append_nil _).symm⟩

theorem solo_store_send (s : WatchState) (name : String) (c : Nat) (body : FrameBody) :
    ∃ s' f, (∀ rest, Solo S resolve w t x (s, .store name c :: .send name body :: rest) (s', rest)) ∧
      f.body = body ∧ Onward t name [f] s s' ∧ s'.topics = s.topics ∧ s'.clock = s.clock ∧
      s'.cursors name = c := by
  refine ⟨_, ⟨update s.cursors name c, body⟩, fun rest => solo_step rfl (solo_step rfl .refl),
    rfl, ⟨fun n hn => ?_, ?_, ?_⟩, rfl, rfl, ?_⟩
  · exact update_of_ne hn _ _
  · simp [emit, setLocals]
  · simp [emit, setLocals]
  · exact update_self _ _ _

theorem solo_tombstoneCode (s : WatchState) (name : String) (first : Bool) (d : DiffResponse) :
    ∃ s' more, (∀ rest, Solo S resolve w t x (s, tombstoneCode name first d ++ rest) (s', rest)) ∧
      Onward t name more s s' ∧ s'.topics = s.topics ∧ s'.clock = s.clock ∧
      ∀ gap, d.tombstone = some gap → ∀ q, gap.gapFrom ≤ q → q ≤ gap.gapTo →
        ∃ f ∈ more, f.body.Tells name q := by
  unfold tombstoneCode
  cases d.tombstone with
  | none => exact ⟨s, [], fun _ => .refl, .refl t name s, rfl, rfl, nofun⟩
  | some gap =>
    obtain ⟨s', f, hsolo, hbody, hon, htopics, hclock, -⟩ := @solo_store_send _ S resolve w t x s name
      gap.gapTo (.tombstone name { gap with reason := if first then .fromSeqTooOld else gap.reason })
    refine ⟨s', [f], hsolo, hon, htopics, hclock, fun gap' hgap' q hlo hhi => ?_⟩
    cases hgap'
    refine ⟨f, mem_singleton_self f, ?_⟩
    rw [hbody]
    exact ⟨rfl, hlo, hhi⟩

theorem solo_recordCode (s : WatchState) (name : String) (c : Nat) (d : DiffResponse) :
    ∃ s' more, (∀ rest, Solo S resolve w t x (s, recordCode name c d ++ rest) (s', rest)) ∧
      Onward t name more s s' ∧ s'.topics = s.topics ∧ s'.clock = s.clock ∧
      (d.records ≠ [] → s'.cursors name = d.nextFromSeq) ∧
      ∀ o ∈ d.records, ∃ f ∈ more, f.body.Tells name o.seq := by
  unfold recordCode
  cases hempty : d.records with
  | nil =>
    simp only [isEmpty_nil, if_true]
    split
    · refine ⟨_, [], fun rest => solo_step rfl .refl, ⟨fun n hn => ?_, rfl, ?_⟩, rfl, rfl, ?_, ?_⟩
      · exact update_of_ne hn _ _
      · exact (append_nil _).symm
      · exact fun h => absurd rfl h
      · exact forall_mem_nil _
    · exact ⟨s, [], fun _ => .refl, .refl t name s, rfl, rfl, fun h => absurd rfl h,
        forall_mem_nil _⟩
  | cons o records =>
    simp only [isEmpty_cons, Bool.false_eq_true, if_false]
    obtain ⟨s', f, hsolo, hbody, hon, htopics, hclock, hnext⟩ := @solo_store_send _ S resolve w t x s
      name d.nextFromSeq (.record name c d.headSeq (o :: records) d.nextFromSeq)
    refine ⟨s', [f], hsolo, hon, htopics, hclock, fun _ => hnext, fun o' ho' => ?_⟩
    refine ⟨f, mem_singleton_self f, ?_⟩
    rw [hbody]
    exact ⟨rfl, o', ho', rfl⟩

structure Paged (name : String) (d : DiffResponse) (more : List WatchFrame) (s s' : WatchState) :
    Prop where
  topics : s'.topics = s.topics
  clock : s'.clock = s.clock
  next : d.records ≠ [] → s'.cursors name = d.nextFromSeq
  gap : ∀ gap, d.tombstone = some gap → ∀ q, gap.gapFrom ≤ q → q ≤ gap.gapTo →
    ∃ f ∈ more, f.body.Tells name q
  records : ∀ o ∈ d.records, ∃ f ∈ more, f.body.Tells name o.seq

theorem solo_page (name : String) (c : Nat) (first : Bool) (d : DiffResponse) (s : WatchState)
    (rest : List WatchInstr) :
    ∃ s' more, Solo S resolve w t x (s, pageCode name c first d ++ rest)
        (s', (if d.caughtUp then .caughtUp name d.headSeq else .drain name) :: rest) ∧
      Onward t name more s s' ∧ Paged name d more s s' := by
  obtain ⟨s₁, more₁, hsolo₁, hon₁, htopics₁, hclock₁, hgap⟩ :=
    @solo_tombstoneCode _ S resolve w t x s name first d
  obtain ⟨s₂, more₂, hsolo₂, hon₂, htopics₂, hclock₂, hnext, hrecords⟩ :=
    @solo_recordCode _ S resolve w t x s₁ name c d
  refine ⟨s₂, more₁ ++ more₂, ?_, hon₁.trans hon₂, ⟨htopics₂.trans htopics₁, hclock₂.trans hclock₁,
    hnext, fun gap hg q hlo hhi => ?_, fun o ho => ?_⟩⟩
  · unfold pageCode
    rw [append_assoc, append_assoc]
    exact (hsolo₁ _).trans (hsolo₂ _)
  · obtain ⟨f, hf, htells⟩ := hgap gap hg q hlo hhi
    exact ⟨f, mem_append_left _ hf, htells⟩
  · obtain ⟨f, hf, htells⟩ := hrecords o ho
    exact ⟨f, mem_append_right _ hf, htells⟩

theorem solo_caughtUp (s : WatchState) (name : String) (headSeq : Nat) (rest : List WatchInstr) :
    ∃ s' more, Solo S resolve w t x (s, .caughtUp name headSeq :: rest) (s', rest) ∧
      Onward t name more s s' ∧ s'.topics = s.topics ∧ s'.clock = s.clock := by
  by_cases hmem : name ∈ (s.locals t).caughtUp
  · have hsem : sem S resolve w s t x (.caughtUp name headSeq) = some (.next s []) := by
      simp only [sem, if_pos hmem]
    exact ⟨s, [], solo_step hsem .refl, .refl t name s, rfl, rfl⟩
  · have hsem : sem S resolve w s t x (.caughtUp name headSeq) =
        some (.next ((s.setLocals t
          { s.locals t with caughtUp := name :: (s.locals t).caughtUp }).emit t
            (.caughtUp name headSeq)) []) := by
      simp only [sem, if_neg hmem]
    refine ⟨_, [⟨s.cursors, .caughtUp name headSeq⟩], solo_step hsem .refl,
      ⟨fun _ _ => rfl, ?_, ?_⟩, rfl, rfl⟩
    all_goals simp [emit, setLocals]

/-! ## One topic -/

/-- **A topic is read up to its head.** -/
theorem drain_tells {now : Int} {name : String} (rest : List WatchInstr) {s : WatchState}
    {b : TopicState} (hb : s.topics name = some b) (hclock : s.clock ≤ now)
    (hcursor : s.cursors name ≤ b.headSeq) :
    ∃ s' more, Solo S resolve w t ⟨now, true⟩ (s, .drain name :: rest) (s', rest) ∧
      Onward t name more s s' ∧ s'.clock ≤ now ∧ (∀ n, n ≠ name → s'.topics n = s.topics n) ∧
      ∀ q, s.cursors name < q → b.Shown w.req now q → ∃ f ∈ more, f.body.Tells name q := by
  -- every page that does not reach the head moves the cursor
  induction hm : b.headSeq - s.cursors name using Nat.strong_induction_on generalizing s b with
  | _ m ih =>
  have hsteady := steady_enforceRetention b now
  have hcursor' : s.cursors name ≤ (b.enforceRetention now).headSeq := by
    rw [hsteady.headSeq]
    exact hcursor
  let d := (b.enforceRetention now).diff (resolve name) { w.req with fromSeq := s.cursors name } now
  let l := s.locals t
  let s₀ : WatchState :=
    { s with topics := update s.topics name (some (b.enforceRetention now)), clock := now
      }.setLocals t { l with firstRead := l.firstRead.filter (· ≠ name) }
  have hread : sem S resolve w s t ⟨now, true⟩ (.diff name (s.cursors name)) =
      some (.next s₀ (pageCode name (s.cursors name) (decide (name ∈ l.firstRead)) d)) := by
    simp only [sem, hb, if_true, if_pos hclock]
    rfl
  have hon₀ : Onward t name [] s s₀ :=
    ⟨fun _ _ => rfl, by simp [s₀, setLocals, l], (append_nil _).symm⟩
  obtain ⟨s₁, more₁, hsolo₁, hon₁, hpaged⟩ := @solo_page _ S resolve w t ⟨now, true⟩ name
    (s.cursors name) (decide (name ∈ l.firstRead)) d s₀ rest
  have hrun : Solo S resolve w t ⟨now, true⟩ (s, .drain name :: rest)
      (s₁, (if d.caughtUp then .caughtUp name d.headSeq else .drain name) :: rest) :=
    solo_step rfl (solo_step hread hsolo₁)
  have hon := hon₀.trans hon₁
  rw [nil_append] at hon
  have htopics : ∀ n, n ≠ name → s₁.topics n = s.topics n := fun n hn => by
    rw [hpaged.topics]
    exact update_of_ne hn _ _
  have htells : ∀ q, s.cursors name < q → b.Shown w.req now q →
      (∃ f ∈ more₁, f.body.Tells name q) ∨
        d.nextFromSeq < q ∧ (b.enforceRetention now).Shown w.req now q := fun q hq hs => by
    rcases page_tells (resolve name) hs hq with
      ⟨gap, hgap, hlo, hhi⟩ | ⟨o, ho, rfl⟩ | hlater
    · exact .inl (hpaged.gap gap hgap q hlo hhi)
    · exact .inl (hpaged.records o ho)
    · exact .inr hlater
  have hnext := diff_le_headSeq (resolve name) w.req now hcursor'
  by_cases hend : d.nextFromSeq = (b.enforceRetention now).headSeq
  · have hcaught : d.caughtUp = true := beq_iff_eq.mpr hend
    rw [if_pos hcaught] at hrun
    obtain ⟨s₂, more₂, hsolo₂, hon₂, htopics₂, hclock₂⟩ :=
      @solo_caughtUp _ S resolve w t ⟨now, true⟩ s₁ name d.headSeq rest
    refine ⟨s₂, more₁ ++ more₂, hrun.trans hsolo₂, hon.trans hon₂, ?_, fun n hn => ?_, fun q hq hs => ?_⟩
    · rw [hclock₂, hpaged.clock]
      exact le_refl now
    · rw [htopics₂]
      exact htopics n hn
    · rcases htells q hq hs with ⟨f, hf, htold⟩ | ⟨hlt, r, hv, -⟩
      · exact ⟨f, mem_append_left _ hf, htold⟩
      · have := hv.head
        omega
  · have hcaught : d.caughtUp = false := beq_eq_false_iff_ne.mpr hend
    rw [if_neg (by rw [hcaught]; decide)] at hrun
    have hlt : s.cursors name < d.nextFromSeq :=
      lt_nextFromSeq_of_lt hcursor' (lt_of_le_of_ne hnext.2 hend)
    have hrecords : d.records ≠ [] := fun hnil =>
      hend (caughtUp_of_records_nil hcursor' hnil)
    have hb₁ : s₁.topics name = some (b.enforceRetention now) := by
      rw [hpaged.topics]
      exact update_self _ _ _
    have hcursor₁ : s₁.cursors name = d.nextFromSeq := hpaged.next hrecords
    have hshorter : (b.enforceRetention now).headSeq - s₁.cursors name < m := by
      have hle : d.nextFromSeq ≤ b.headSeq := hsteady.headSeq ▸ hnext.2
      rw [hcursor₁, hsteady.headSeq]
      omega
    obtain ⟨s₂, more₂, hsolo₂, hon₂, hclock₂, htopics₂, htells₂⟩ :=
      ih _ hshorter hb₁ hpaged.clock.le (hcursor₁ ▸ hnext.2) rfl
    refine ⟨s₂, more₁ ++ more₂, hrun.trans hsolo₂, hon.trans hon₂, hclock₂,
      fun n hn => (htopics₂ n hn).trans (htopics n hn), fun q hq hs => ?_⟩
    rcases htells q hq hs with ⟨f, hf, htold⟩ | ⟨hlater, hs'⟩
    · exact ⟨f, mem_append_left _ hf, htold⟩
    · obtain ⟨f, hf, htold⟩ := htells₂ q (by rw [hcursor₁]; exact hlater) hs'
      exact ⟨f, mem_append_right _ hf, htold⟩

/-! ## The whole pass -/

theorem solo_visits {now : Int} {l : List String} (hnodup : l.Nodup) (rest : List WatchInstr)
    {s : WatchState} (hclock : s.clock ≤ now)
    (hcursors : ∀ n ∈ l, ∀ b, s.topics n = some b → s.cursors n ≤ b.headSeq) :
    ∃ s' more, Solo S resolve w t ⟨now, true⟩ (s, l.map .visit ++ rest) (s', rest) ∧
      s'.sent t = s.sent t ++ more ∧
      ∀ n ∈ l, n ∉ (s.locals t).deleted → ∀ b, s.topics n = some b → ∀ q, s.cursors n < q →
        b.Shown w.req now q → ∃ f ∈ more, f.body.Tells n q := by
  induction l generalizing s with
  | nil => exact ⟨s, [], .refl, (append_nil _).symm, forall_mem_nil _⟩
  | cons name l ih =>
    obtain ⟨hname, hnodup⟩ := nodup_cons.mp hnodup
    have hne : ∀ n ∈ l, n ≠ name := fun n hn heq => hname (heq ▸ hn)
    have hcursors' : ∀ n ∈ l, ∀ b, s.topics n = some b → s.cursors n ≤ b.headSeq :=
      fun n hn => hcursors n (mem_cons_of_mem name hn)
    by_cases hdel : name ∈ (s.locals t).deleted
    · have hsem : sem S resolve w s t ⟨now, true⟩ (.visit name) = some (.next s []) := by
        simp only [sem, if_pos hdel]
      obtain ⟨s', more, hsolo, hsent, htells⟩ := ih hnodup hclock hcursors'
      refine ⟨s', more, solo_step hsem hsolo, hsent, ?_⟩
      rintro n hn hlive b hb q hq hs
      rcases mem_cons.mp hn with rfl | hn
      · exact absurd hdel hlive
      · exact htells n hn hlive b hb q hq hs
    · cases hb : s.topics name with
      | none =>
        have hsem : sem S resolve w s t ⟨now, true⟩ (.visit name) = some (.next (s.vanish t name) []) := by
          simp only [sem, if_neg hdel, hb]
        obtain ⟨s', more, hsolo, hsent, htells⟩ := @ih hnodup (s.vanish t name) hclock hcursors'
        refine ⟨s', ⟨s.cursors, .topicDeleted name⟩ :: more, solo_step hsem hsolo, ?_, ?_⟩
        · rw [hsent]
          simp [vanish, emit, setLocals]
        · rintro n hn hlive b hb' q hq hs
          rcases mem_cons.mp hn with rfl | hn
          · rw [hb] at hb'
            cases hb'
          · have hlive' : n ∉ ((s.vanish t name).locals t).deleted := by
              simp [vanish, emit, setLocals, hne n hn, hlive]
            obtain ⟨f, hf, htold⟩ := htells n hn hlive' b hb' q hq hs
            exact ⟨f, mem_cons_of_mem _ hf, htold⟩
      | some b =>
        have hsem : sem S resolve w s t ⟨now, true⟩ (.visit name) = some (.next s [.drain name]) := by
          simp only [sem, if_neg hdel, hb]
        obtain ⟨s₁, more₁, hsolo₁, hon, hclock₁, htopics, htells₁⟩ :=
          @drain_tells _ S resolve w t now name (l.map .visit ++ rest) s b hb hclock
            (hcursors name mem_cons_self b hb)
        obtain ⟨s', more, hsolo, hsent, htells⟩ := @ih hnodup s₁ hclock₁ fun n hn b hb' => by
          rw [htopics n (hne n hn)] at hb'
          rw [hon.cursors n (hne n hn)]
          exact hcursors' n hn b hb'
        refine ⟨s', more₁ ++ more, solo_step hsem (hsolo₁.trans hsolo), ?_, ?_⟩
        · rw [hsent, hon.sent, append_assoc]
        · rintro n hn hlive b' hb' q hq hs
          rcases mem_cons.mp hn with rfl | hn
          · cases hb.symm.trans hb'
            obtain ⟨f, hf, htold⟩ := htells₁ q hq hs
            exact ⟨f, mem_append_left _ hf, htold⟩
          · rw [← hon.deleted] at hlive
            rw [← htopics n (hne n hn)] at hb'
            rw [← hon.cursors n (hne n hn)] at hq
            obtain ⟨f, hf, htold⟩ := htells n hn hlive b' hb' q hq hs
            exact ⟨f, mem_append_right _ hf, htold⟩

/-- **A pass tells everything.**  From the top of the loop, the stream on its own tells of every
record that is shown above the cursors, except on topics it has reported as deleted. -/
theorem pass_tells {now : Int} {s : WatchState} (hclock : s.clock ≤ now)
    (hcursors : ∀ n ∈ w.names, ∀ b, s.topics n = some b → s.cursors n ≤ b.headSeq) :
    ∃ s' more, Solo S resolve w t ⟨now, true⟩ (s, [.pass]) (s', [.park]) ∧
      s'.sent t = s.sent t ++ more ∧
      ∀ n ∈ w.names, n ∉ (s.locals t).deleted → ∀ b, s.topics n = some b → ∀ q, s.cursors n < q →
        b.Shown w.req now q → ∃ f ∈ more, f.body.Tells n q := by
  obtain ⟨s', more, hsolo, hrest⟩ := @solo_visits _ S resolve w t now w.names w.nodup [.park] s hclock
    hcursors
  refine ⟨s', more, solo_step (i := .pass) rfl ?_, hrest⟩
  rw [append_nil]
  exact hsolo

end Solo

end WatchState

end Topics
