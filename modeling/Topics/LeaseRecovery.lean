import Topics.LeaseHistory

/-!
# Which leases a restart keeps

The projection that recovery folds from the log is compared with the live one: they agree on every
lease whose claim lies behind the last snapshot.  Expired leases are swept without a frame, so the
folded projection may hold more leases than the live one, and the snapshot itself holds none.
-/

namespace Topics

open Lib QueueProjection List TopicState Std.TreeMap

variable {Blob : Type}

theorem ClaimPass.notes_lease (claimers : List Claimer) (terms : ClaimTerms) (st : ClaimPass)
    (q : QueueProjection) (rr seq : Nat) :
    (st.lease claimers terms q rr seq).notes claimers terms.deadlineMs =
      st.notes claimers terms.deadlineMs ++
        [⟨.claimed, seq, (claimers[rr]?.map Claimer.node).getD "", q.nextLeaseId, terms.deadlineMs,
          q.deliveries.getD seq 0 + 1⟩] := by
  simp [ClaimPass.notes, ClaimPass.lease]

namespace LeaseRun

/-! ## One event on both projections -/

/-- Every live lease that `known` names has its copy in `sh`.  Frames hold no deadline before
the epoch. -/
def Mirrored (known : Nat × Nat → Prop) (q sh : QueueProjection) : Prop :=
  ∀ (x : Nat) l, q.leases[x]? = some l → known (x, l.leaseId) →
    ∃ l', sh.leases[x]? = some l' ∧ l'.node = l.node ∧ l'.leaseId = l.leaseId ∧
      (0 ≤ l.deadlineMs → l'.deadlineMs = l.deadlineMs) ∧ sh.deliveries[x]? = q.deliveries[x]?

theorem asI64_toNat {t : Int} (h0 : 0 ≤ t) (h1 : t ≤ 2 ^ 63 - 1) : asI64 t.toNat = t := by
  unfold asI64
  rw [BitVec.toInt_eq_toNat_of_lt] <;> simp only [BitVec.toNat_ofNat] <;> omega

theorem applyNote_frame (q : QueueProjection) (e : LeaseNote) {x : Nat} (hx : x ≠ e.seq) :
    (applyNote q e).leases[x]? = q.leases[x]? ∧ (applyNote q e).deliveries[x]? = q.deliveries[x]? := by
  obtain ⟨event, seq, node, leaseId, deadline, deliveries⟩ := e
  have hne : compare seq x ≠ .eq := fun h => hx (Nat.compare_eq_eq.mp h).symm
  obtain ⟨q', hq', hstep⟩ :=
    q.leaseStep_applyLeaseEvent event seq node leaseId (asI64 deadline.toNat) deliveries
  rw [applyNote, hq']
  cases hstep with
  | claimed | extended => simp [Std.TreeMap.getElem?_insert, hne]
  | released => simp [dropLease, getElem?_erase, hne]
  | acked => simp [getElem?_erase, hne]
  | stale => exact ⟨rfl, rfl⟩

theorem applyNote_claimed (q : QueueProjection) (seq : Nat) (node : String) (leaseId : Nat)
    (deadline : Int) (deliveries : Nat) :
    (applyNote q ⟨.claimed, seq, node, leaseId, deadline, deliveries⟩).leases[seq]? =
        some ⟨node, leaseId, asI64 deadline.toNat, none⟩ ∧
      (applyNote q ⟨.claimed, seq, node, leaseId, deadline, deliveries⟩).deliveries[seq]? =
        some deliveries := by
  simp [applyNote, applyLeaseEvent]

theorem applyNote_extended {q : QueueProjection} {seq : Nat} {l : Lease}
    (hl : q.leases[seq]? = some l) (node : String) (deadline : Int) (deliveries : Nat) :
    (applyNote q ⟨.extended, seq, node, l.leaseId, deadline, deliveries⟩).leases[seq]? =
        some { l with deadlineMs := asI64 deadline.toNat } ∧
      (applyNote q ⟨.extended, seq, node, l.leaseId, deadline, deliveries⟩).deliveries[seq]? =
        q.deliveries[seq]? := by
  obtain ⟨q', hq', hstep⟩ :=
    q.leaseStep_applyLeaseEvent .extended seq node l.leaseId (asI64 deadline.toNat) deliveries
  rw [applyNote, hq']
  cases hstep with
  | extended h =>
    cases hl.symm.trans h
    simp
  | stale _ hid => exact absurd (congrArg (Option.map Lease.leaseId) hl) hid

namespace Mirrored

variable {known known' : Nat × Nat → Prop} {q q' sh sh' : QueueProjection}

theorem refl (known : Nat × Nat → Prop) (q : QueueProjection) : Mirrored known q q :=
  fun _ l hl _ => ⟨l, hl, rfl, rfl, fun _ => rfl, rfl⟩

section

variable (h : Mirrored known q sh)

include h

theorem mono (hknown : ∀ e, known' e → known e) :
    Mirrored known' q sh := fun x l hl hk => h x l hl (hknown _ hk)

theorem narrow (hq : ∀ (x : Nat) l, q'.leases[x]? = some l →
      q.leases[x]? = some l ∧ q'.deliveries[x]? = q.deliveries[x]?) : Mirrored known q' sh := by
  intro x l hl hk
  obtain ⟨hl, hdel⟩ := hq x l hl
  rw [hdel]
  exact h x l hl hk

theorem sweepExpired (now : Int) : Mirrored known (q.sweepExpired now) sh :=
  h.narrow fun x _ hl =>
    ⟨leases_of_sweepExpired hl, by rw [sweepExpired_deliveries]⟩

theorem applyNote {e : LeaseNote} (he : q.leases[e.seq]? = none) :
    Mirrored known q (applyNote sh e) := by
  intro x l hl hk
  have hx : x ≠ e.seq := by
    rintro rfl
    rw [he] at hl
    cases hl
  obtain ⟨hleases, hdeliveries⟩ := applyNote_frame sh e hx
  rw [hleases, hdeliveries]
  exact h x l hl hk

theorem erased {e : LeaseNote} (hq : q'.leases = q.leases.erase e.seq)
    (hdel : ∀ x, x ≠ e.seq → q'.deliveries[x]? = q.deliveries[x]?) :
    Mirrored known q' (LeaseRun.applyNote sh e) := by
  have hnone : q'.leases[e.seq]? = none := by
    rw [hq]
    exact getElem?_erase_self
  refine applyNote (h.narrow fun x l hl => ?_) hnone
  have hx : x ≠ e.seq := by
    rintro rfl
    rw [hnone] at hl
    cases hl
  rw [hq, getElem?_erase] at hl
  split at hl
  · cases hl
  · exact ⟨hl, hdel x hx⟩

theorem ackOne (seq : Nat) (l : Lease) (node : String) :
    Mirrored known (q.ackOne seq l) (LeaseRun.applyNote sh ⟨.acked, seq, node, l.leaseId, 0, 0⟩) := by
  refine h.erased rfl fun x hx => ?_
  have hne : compare seq x ≠ .eq := fun h => hx (Nat.compare_eq_eq.mp h).symm
  simp [QueueProjection.ackOne, getElem?_erase, hne]

theorem nackOne (delayMs : Nat) (now : Int) (seq : Nat) (l : Lease) (node : String) :
    Mirrored known (q.nackOne delayMs now seq l)
      (LeaseRun.applyNote sh ⟨.released, seq, node, l.leaseId, 0, 0⟩) := by
  unfold QueueProjection.nackOne
  simp only
  split
  · exact h.erased rfl fun _ _ => rfl
  · exact h.erased (pushReclaim_leases _ seq) fun _ _ => by simp

theorem dropLease (seq : Nat) (node : String) (leaseId : Nat) : Mirrored known (q.dropLease seq)
      (LeaseRun.applyNote sh ⟨.released, seq, node, leaseId, 0, 0⟩) :=
  h.erased (pushReclaim_leases _ seq) fun _ _ => by
    simp [QueueProjection.dropLease]

theorem extendOne {deadline : Int} (hmax : deadline ≤ 2 ^ 63 - 1) {seq : Nat} {l : Lease}
    (hl : q.leases[seq]? = some l) (node : String) : Mirrored known (q.extendOne deadline seq l)
      (LeaseRun.applyNote sh ⟨.extended, seq, node, l.leaseId, deadline, 0⟩) := by
  intro x l' hl' hk
  by_cases hx : x = seq
  · subst hx
    have hlive : l' = { l with deadlineMs := deadline } := by
      simpa [QueueProjection.extendOne] using hl'.symm
    subst hlive
    obtain ⟨sl, hsl, hnode, hid, -, hdel⟩ := h x l hl hk
    obtain ⟨hleases, hdeliveries⟩ := applyNote_extended hsl node deadline 0
    rw [hid] at hleases hdeliveries
    exact ⟨_, hleases, hnode, rfl, fun h0 => asI64_toNat h0 hmax, hdeliveries.trans hdel⟩
  · have hne : compare seq x ≠ .eq := fun h => hx (Nat.compare_eq_eq.mp h).symm
    obtain ⟨hleases, hdeliveries⟩ :=
      applyNote_frame sh ⟨.extended, seq, node, l.leaseId, deadline, 0⟩ hx
    rw [hleases, hdeliveries]
    simp only [QueueProjection.extendOne, Std.TreeMap.getElem?_insert, hne, if_false] at hl'
    exact h x l' hl' hk

end

theorem heldLoop {node : String} {leaseIds : List (Option Nat)}
    {act : QueueProjection → Nat → Lease → QueueProjection} {event : LeaseEvent} {deadline : Int}
    (hact : ∀ (q sh : QueueProjection) seq l, q.leases[seq]? = some l → Mirrored known q sh →
      Mirrored known (act q seq l)
        (LeaseRun.applyNote sh ⟨event, seq, node, l.leaseId, deadline, 0⟩))
    (h : Mirrored known q sh) (l : List (Nat × Nat)) :
    Mirrored known (QueueProjection.heldLoop node leaseIds act l (q, [])).1
      ((noted event node deadline (QueueProjection.heldLoop node leaseIds act l (q, [])).2).foldl
        LeaseRun.applyNote sh) := by
  refine heldLoop_induct
    (P := fun q done => Mirrored known q
      ((noted event node deadline done).foldl LeaseRun.applyNote sh)) ?_ l h
  intro q done seq lease hl _ hP
  simp only [noted, map_append, foldl_append, map_cons, map_nil, foldl_cons,
    foldl_nil]
  exact hact q _ seq lease hl hP

theorem lease (h : Mirrored known q sh) (claimers : List Claimer) {terms : ClaimTerms}
    (hmax : terms.deadlineMs ≤ 2 ^ 63 - 1) {st : ClaimPass} (rr seq : Nat) :
    Mirrored (fun e => known e ∨ e = (seq, q.nextLeaseId)) (st.lease claimers terms q rr seq).q
      (LeaseRun.applyNote sh
        ⟨.claimed, seq, (claimers[rr]?.map Claimer.node).getD "", q.nextLeaseId, terms.deadlineMs,
          q.deliveries.getD seq 0 + 1⟩) := by
  intro x l hl hk
  by_cases hx : x = seq
  · subst hx
    simp only [ClaimPass.lease, Std.TreeMap.getElem?_insert_self, Option.some.injEq] at hl
    subst hl
    obtain ⟨hleases, hdeliveries⟩ := applyNote_claimed sh x
      ((claimers[rr]?.map Claimer.node).getD "") q.nextLeaseId terms.deadlineMs
      (q.deliveries.getD x 0 + 1)
    refine ⟨_, hleases, rfl, rfl, fun h0 => asI64_toNat h0 hmax, ?_⟩
    simp [hdeliveries, ClaimPass.lease]
  · have hne : compare seq x ≠ .eq := fun h => hx (Nat.compare_eq_eq.mp h).symm
    simp only [ClaimPass.lease, Std.TreeMap.getElem?_insert, hne, if_false] at hl ⊢
    obtain ⟨hleases, hdeliveries⟩ := applyNote_frame sh
      ⟨.claimed, seq, (claimers[rr]?.map Claimer.node).getD "", q.nextLeaseId, terms.deadlineMs,
        q.deliveries.getD seq 0 + 1⟩ hx
    rw [hleases, hdeliveries]
    refine h x l hl (hk.resolve_right fun hk => hx ?_)
    exact congrArg Prod.fst hk

/-- **A claim pass.** -/
theorem claimPass (h : Mirrored known q sh) (ix : TopicIndex) (head : Nat)
    (claimers : List Claimer) (terms : ClaimTerms) (hmax : terms.deadlineMs ≤ 2 ^ 63 - 1)
    (now : Int) :
    Mirrored (fun e => known e ∨ e ∈ (runClaimCohort q ix head claimers terms now).deliveries)
      (runClaimCohort q ix head claimers terms now).q
      (((runClaimCohort q ix head claimers terms now).notes claimers terms.deadlineMs).foldl
        LeaseRun.applyNote sh) := by
  unfold runClaimCohort
  refine ClaimPass.claimLoop_induct
    (P := fun st => Mirrored (fun e => known e ∨ e ∈ st.deliveries) st.q
      ((st.notes claimers terms.deadlineMs).foldl LeaseRun.applyNote sh))
    (fun _ _ h => h) ?_ ?_ ?_ _ ?_
  · intro st q rr hP hnext
    obtain ⟨_, _, rfl⟩ := nextClaimable_eq hnext
    exact hP
  · intro st q rr seq hP hnext _
    have hidle := (nextClaimable_some hnext).2.1.1.2
    obtain ⟨_, _, rfl⟩ := nextClaimable_eq hnext
    refine narrow hP fun x l hl => ⟨hl, ?_⟩
    have hx : x ≠ seq := by
      rintro rfl
      rw [contains_eq_isSome_getElem?] at hidle
      simp only [ClaimPass.divert] at hl
      rw [hl] at hidle
      cases hidle
    have hne : compare seq x ≠ .eq := fun h => hx (Nat.compare_eq_eq.mp h).symm
    simp [ClaimPass.divert, getElem?_erase, hne]
  · intro st q rr seq hP hnext _
    obtain ⟨reclaim, claimCursor, rfl⟩ := nextClaimable_eq hnext
    have hP' : Mirrored (fun e => known e ∨ e ∈ st.deliveries)
        { st.q with reclaim := reclaim, claimCursor := claimCursor } _ := hP
    rw [ClaimPass.notes_lease, foldl_append]
    refine (hP'.lease claimers hmax rr seq).mono fun e he => ?_
    simp only [ClaimPass.deliveries, ClaimPass.lease, map_append, map_cons, map_nil,
      mem_append, mem_singleton] at he
    exact or_assoc.mpr he
  · exact (h.sweepExpired now).mono fun e he => he.resolve_right fun he => by
      simp [ClaimPass.deliveries] at he

end Mirrored

/-! ## What a call logs -/

def known (log : List (WalRecord Blob)) (e : Nat × Nat) : Prop := ∃ f ∈ log, grants e f = true

/-- The call leaves the queue alone and logs `events`. -/
structure Follows (events : List LeaseNote) (r r' : TopicRun Blob) : Prop where
  queue : r'.topic.queue = r.topic.queue
  config : r'.topic.config = r.topic.config
  folded : folded r'.log = events.foldl applyNote (folded r.log)
  claims : ∀ e, known r'.log e →
    known r.log e ∨ ∃ n ∈ events, n.event = .claimed ∧ (n.seq, n.leaseId) = e
  tail : (∀ f ∈ r.log.drop r.synced, Silent f) → ∀ f ∈ r'.log.drop r'.synced, Silent f

namespace Follows

variable {events events' : List LeaseNote} {r r' r'' : TopicRun Blob}

theorem of_quietly (h : Quietly r r') : Follows [] r r' := by
  refine ⟨h.queue, h.config, h.folded_log, ?_, h.unsynced⟩
  rintro e ⟨f, hf, hg⟩
  have hlogs : Logs [] r r' := .of_quietly h
  rcases hlogs.frames f hf with hold | ⟨hnew, -⟩
  · exact .inl ⟨f, hold, hg⟩
  · exact (not_mem_nil (hnew e hg)).elim

theorem trans (h : Follows events r r') (h' : Follows events' r' r'') :
    Follows (events ++ events') r r'' := by
  refine ⟨h'.queue.trans h.queue, h'.config.trans h.config, ?_, fun e he => ?_,
    fun ht => h'.tail (h.tail ht)⟩
  · rw [h'.folded, h.folded, foldl_append]
  · rcases h'.claims e he with he | ⟨n, hn, hclaim⟩
    · refine (h.claims e he).imp_right ?_
      rintro ⟨n, hn, hclaim⟩
      exact ⟨n, mem_append_left _ hn, hclaim⟩
    · exact .inr ⟨n, mem_append_right _ hn, hclaim⟩

theorem logLeases (hdur : r.leasesDurable = true) (now : Int) (events : List LeaseNote) :
    Follows events r (r.logLeases now events) := by
  refine ⟨by rw [logLeases_topic], by rw [logLeases_topic], folded_logLeases hdur now events, ?_,
    fun ht => tail_logLeases ht now events⟩
  rintro e ⟨f, hf, hg⟩
  rcases mem_log_logLeases hf with hf | ⟨-, ⟨event, seq, node, leaseId, deadline, deliveries⟩, hn, rfl⟩
  · exact .inl ⟨f, hf, hg⟩
  · cases event with
    | claimed => exact .inr ⟨_, hn, rfl, of_decide_eq_true hg⟩
    | _ => cases hg

theorem leasesDurable (h : Follows events r r') : r'.leasesDurable = r.leasesDurable := by
  unfold TopicRun.leasesDurable
  rw [h.config]

theorem ackAll {node : String} {now : Int} (held : List (Nat × Nat)) {r : TopicRun Blob}
    (hdur : r.leasesDurable = true) :
    Follows (noted .acked node 0 held) r
      (held.foldl
        (fun r (seq, leaseId) =>
          (r.deleteOneSeq now seq).logLeases now (noted .acked node 0 [(seq, leaseId)])) r) := by
  induction held generalizing r with
  | nil => exact of_quietly (.refl r)
  | cons e held ih =>
    have hdelete := of_quietly (Quietly.deleteOneSeq r now e.1)
    have hone := hdelete.trans
      (logLeases (hdelete.leasesDurable.trans hdur) now (noted .acked node 0 [e]))
    exact hone.trans (ih (hone.leasesDurable.trans hdur))

/-- **The two halves of a call**: what the critical section did is what the log says. -/
theorem mirrored (h : Follows events r r') {q sh : QueueProjection} {old : Nat × Nat → Prop}
    (hm : Mirrored (fun e => old e ∨ ∃ n ∈ events, n.event = .claimed ∧ (n.seq, n.leaseId) = e) q
      (events.foldl applyNote sh)) (hsh : LeaseRun.folded r.log = sh) (hold : ∀ e, known r.log e → old e) :
    Mirrored (known r'.log) q (LeaseRun.folded r'.log) := by
  rw [h.folded, hsh]
  exact hm.mono fun e he => (h.claims e he).imp_left (hold e)

end Follows

/-! ## Whole histories -/

/-- The state between calls of an `fsync` queue with durable leases. -/
structure Shadowed (s : LeaseRun Blob) : Prop where
  config : s.base.config = s.run.topic.config
  queue : s.run.topic.config.isQueue = true
  durable : s.run.leasesDurable = true
  base : s.base.queue = some (.new seqBaseDefault)
  tail : ∀ f ∈ s.run.log.drop s.run.synced, Silent f
  mirrored : ∀ q, s.run.topic.queue = some q → Mirrored (known s.run.log) q (folded s.run.log)

theorem recoverFrom_queue_some (S : Serde Blob) {b : TopicState}
    (hp : b.config.usesPersistentRecordStore = true) (hbase : b.queue = some (.new seqBaseDefault))
    (frames : List (WalRecord Blob)) : (b.recoverFrom S frames).queue = some (folded frames) := by
  unfold recoverFrom
  rw [applyHeadWatermark_queue, replayAll_queue S hp, hbase]
  rfl

theorem folded_take {r : TopicRun Blob} (htail : ∀ f ∈ r.log.drop r.synced, Silent f) {kept : Nat}
    (hkept : r.synced ≤ kept) : folded (r.log.take kept) = folded r.log := by
  have hsplit : folded r.log = folded (r.log.take kept ++ r.log.drop kept) := by
    rw [take_append_drop]
  rw [hsplit]
  refine (folded_append_silent fun f hf => htail f ?_).symm
  exact (drop_subset_drop_left _ hkept) hf

section Step

variable {S : Serde Blob} {resolve : Nat → Value × Option Value} {s s' : LeaseRun Blob}

theorem Shadowed.persistent (h : Shadowed s) : s.base.config.usesPersistentRecordStore = true := by
  rw [h.config]
  exact (Bool.and_eq_true_iff.mp h.durable).2

variable {q : QueueProjection} {events : List LeaseNote} {r' : TopicRun Blob}

theorem Shadowed.of_follows (h : Shadowed s) {issued : List (Nat × Nat)}
    (hfollows : Follows events (s.run.setQueue q) r') (hm : Mirrored
      (fun e => known s.run.log e ∨ ∃ n ∈ events, n.event = .claimed ∧ (n.seq, n.leaseId) = e) q
      (events.foldl applyNote (folded s.run.log))) :
    Shadowed { s with run := r', issued := issued } := by
  refine ⟨h.config.trans hfollows.config.symm, ?_, hfollows.leasesDurable.trans h.durable, h.base,
    hfollows.tail h.tail, fun q' hq' => ?_⟩
  · rw [hfollows.config]
    exact h.queue
  · cases hfollows.queue.symm.trans hq'
    exact hfollows.mirrored hm rfl fun _ => id

theorem Shadowed.of_quietly (h : Shadowed s) (hquiet : Quietly s.run r') :
    Shadowed { s with run := r' } := by
  have hfollows := Follows.of_quietly hquiet
  refine ⟨h.config.trans hfollows.config.symm, ?_, hfollows.leasesDurable.trans h.durable, h.base,
    hfollows.tail h.tail, fun q hq => ?_⟩
  · rw [hfollows.config]
    exact h.queue
  · refine hfollows.mirrored ((h.mirrored q (hfollows.queue.symm.trans hq)).mono fun e he => ?_) rfl
      fun _ => id
    exact he.resolve_right fun ⟨_, hn, _⟩ => not_mem_nil hn

theorem Shadowed.of_unclaimed (h : Shadowed s) (hfollows : Follows events (s.run.setQueue q) r')
    (hevents : ∀ n ∈ events, n.event ≠ .claimed)
    (hm : Mirrored (known s.run.log) q (events.foldl applyNote (folded s.run.log))) :
    Shadowed { s with run := r' } :=
  h.of_follows hfollows (hm.mono fun _ he =>
    he.resolve_right fun ⟨n, hn, hclaim, _⟩ => hevents n hn hclaim)

theorem unclaimed_noted {event : LeaseEvent} (hevent : event ≠ .claimed) {node : String}
    {deadline : Int} {held : List (Nat × Nat)} :
    ∀ n ∈ noted event node deadline held, n.event ≠ .claimed := by
  intro n hn
  obtain ⟨d, -, rfl⟩ := mem_map.mp hn
  exact hevent

theorem mirrored_releaseConn {known : Nat × Nat → Prop} {q sh : QueueProjection}
    (h : Mirrored known q sh) (conn : Nat) :
    Mirrored known (q.releaseConn conn).1
      (((q.releaseConn conn).2.map fun (seq, node, leaseId) =>
        (⟨.released, seq, node, leaseId, 0, 0⟩ : LeaseNote)).foldl applyNote sh) := by
  unfold releaseConn
  simp only [map_map]
  generalize q.connLeases conn = l
  induction l generalizing q sh with
  | nil => exact h
  | cons e l ih => exact ih (h.dropLease e.1 e.2.node e.2.leaseId)

/-- **One call.** -/
theorem Shadowed.step (hS : S.RoundTrips) (h : Shadowed s) {c : LeaseCall}
    (hstep : s.step S resolve c = some s') : Shadowed s' := by
  cases c with
  | write records now =>
    cases hstep
    exact h.of_quietly (Quietly.write S s.run records now)
  | claim claimers leaseMs now =>
    simp only [LeaseRun.step, Option.map_eq_some_iff] at hstep
    obtain ⟨q, hq, rfl⟩ := hstep
    have hretained := h.of_quietly (Quietly.retain s.run now)
    have hpass := (hretained.mirrored q hq).claimPass (s.run.retain now).topic.index
      (s.run.retain now).topic.headSeq claimers
      ((s.run.retain now).claimTerms ((s.run.retain now).claimDeadline leaseMs now))
      (Int.min_le_left _ _) now
    refine hretained.of_follows
      ((Follows.of_quietly (Quietly.deleteAll _ now _)).trans (Follows.logLeases ?_ now _))
      (hpass.mono fun e he => he.imp_right ?_)
    · exact (Follows.of_quietly (Quietly.deleteAll _ now _)).leasesDurable.trans hretained.durable
    · rintro ⟨n, hn, -, rfl⟩
      obtain ⟨d, hd, rfl⟩ := mem_map.mp hn
      exact mem_map.mpr ⟨d, hd, rfl⟩
  | ack node seqs leaseIds now =>
    simp only [LeaseRun.step] at hstep
    obtain ⟨q, hq, rfl⟩ := Option.map_eq_some_iff.mp (Option.ite_none_left_eq_some.mp hstep).2
    refine h.of_unclaimed (Follows.ackAll _ h.durable)
      (unclaimed_noted (by decide)) ?_
    unfold ackLeases
    rw [ackLoop_eq_heldLoop]
    exact ((h.mirrored q hq).sweepExpired now).heldLoop
      (fun q sh seq l _ hm => hm.ackOne seq l node) _
  | nack node seqs leaseIds delayMs now =>
    obtain ⟨q, hq, rfl⟩ := Option.map_eq_some_iff.mp (Option.ite_none_left_eq_some.mp hstep).2
    refine h.of_unclaimed (Follows.logLeases (r := s.run.setQueue _) h.durable now _)
      (unclaimed_noted (by decide)) ?_
    exact ((h.mirrored q hq).sweepExpired now).heldLoop
      (fun q sh seq l _ hm => hm.nackOne delayMs now seq l node) _
  | extend node seqs leaseIds leaseMs now =>
    obtain ⟨q, hq, rfl⟩ := Option.map_eq_some_iff.mp (Option.ite_none_left_eq_some.mp hstep).2
    refine h.of_unclaimed (Follows.logLeases (r := s.run.setQueue _) h.durable now _)
      (unclaimed_noted (by decide)) ?_
    exact ((h.mirrored q hq).sweepExpired now).heldLoop
      (fun q sh seq l hl hm => hm.extendOne (Int.min_le_left _ _) hl node) _
  | release conn now =>
    obtain ⟨q, hq, rfl⟩ := Option.map_eq_some_iff.mp hstep
    refine h.of_unclaimed (Follows.logLeases (r := s.run.setQueue _) h.durable now _) (fun n hn => ?_)
      (mirrored_releaseConn (h.mirrored q hq) conn)
    obtain ⟨d, -, rfl⟩ := mem_map.mp hn
    exact fun hclaimed => by cases hclaimed
  | snapshot now =>
    cases hstep
    have hmark : Quietly s.run (s.run.logDurable [.checkpointMark 0 now.toNat]) :=
      Quietly.logDurable s.run (by simp [Silent])
    have hretain := Quietly.retain (s.run.logDurable [.checkpointMark 0 now.toNat]) now
    have hnext := h.of_quietly (hmark.trans hretain)
    obtain ⟨frames, hlog, hsilent⟩ := hretain.log
    have hdrop : ((s.run.logDurable [.checkpointMark 0 now.toNat]).retain now).log.drop
        (s.run.logDurable [.checkpointMark 0 now.toNat]).log.length = frames := by
      rw [hlog]
      exact drop_left
    refine ⟨?_, hnext.queue, hnext.durable, ?_, ?_, fun q hq x l hl hk => ?_⟩
    · exact config_captureTopic resolve hS
    · exact queue_restoreTopic S _ ((congrArg _ (config_captureTopic resolve hS)).trans hnext.queue)
    · intro f hf
      simp only [hdrop] at hf
      exact hsilent f (mem_of_mem_drop hf)
    · -- nothing behind the snapshot grants a lease
      obtain ⟨f, hf, hg⟩ := hk
      simp only [hdrop] at hf
      rw [Logs.grants_of_silent (hsilent f hf)] at hg
      cases hg
  | crash kept =>
    obtain ⟨-, ⟨⟩⟩ := Option.ite_none_right_eq_some.mp hstep
    have hconfig := recoverFrom_config S s.base (s.run.log.take kept)
    refine ⟨hconfig.symm, ?_, ?_, h.base, ?_, fun q hq => ?_⟩
    · simp only [hconfig, h.config]
      exact h.queue
    · unfold TopicRun.leasesDurable
      simp only [hconfig, h.config]
      exact h.durable
    · simp only [drop_length]
      exact forall_mem_nil _
    · rw [recoverFrom_queue_some S h.persistent h.base] at hq
      cases hq
      exact .refl _ _

theorem shadowed_start {spec : TopicSpec} (hqueue : spec.config.isQueue = true)
    (hclass : spec.config.durabilityClass = .fsync) (hleases : spec.config.leasesDurable = true) :
    Shadowed (start spec : LeaseRun Blob) := by
  have hnew : spec.fresh.queue = some (.new seqBaseDefault) :=
    queue_new spec.name spec.topicId hqueue seqBaseDefault
  refine ⟨rfl, hqueue, ?_, hnew, nofun, fun q hq => ?_⟩
  · have hp : spec.config.usesPersistentRecordStore = true := by
      simp [TopicConfig.usesPersistentRecordStore, hclass]
    exact Bool.and_eq_true_iff.mpr ⟨hleases, hp⟩
  · cases hnew.symm.trans hq
    exact .refl _ _

end Step

/-! ## After the recovery -/

/-- A call that does not give the job back before `deadline`. -/
def Spares (seq : Nat) (deadline : Int) (_ : LeaseRun Blob) : LeaseCall → Prop
  | .claim _ _ now => now ≤ deadline
  | .ack _ seqs _ now => seq ∉ seqs ∧ now ≤ deadline
  | .nack _ seqs _ _ now => seq ∉ seqs ∧ now ≤ deadline
  | .extend _ seqs _ _ now => seq ∉ seqs ∧ now ≤ deadline
  | .crash _ => False
  | .write .. | .release .. | .snapshot _ => True

instance (seq : Nat) (deadline : Int) (s : LeaseRun Blob) (c : LeaseCall) :
    Decidable (Spares seq deadline s c) :=
  match c with
  | .claim .. => inferInstanceAs (Decidable (_ ≤ _))
  | .ack .. | .nack .. | .extend .. => inferInstanceAs (Decidable (_ ∧ _))
  | .crash _ => isFalse id
  | .write .. | .release .. | .snapshot _ => isTrue trivial

/-- The lease is still there, and the job was not delivered since `issued`. -/
structure StillHeld (seq : Nat) (l : Lease) (issued : List (Nat × Nat)) (s : LeaseRun Blob) :
    Prop where
  held : ∃ q, s.run.topic.queue = some q ∧ q.leases[seq]? = some l
  undelivered : ∃ more, s.issued = issued ++ more ∧ ∀ e ∈ more, e.1 ≠ seq

namespace StillHeld

variable {S : Serde Blob} {resolve : Nat → Value × Option Value} {s s' : LeaseRun Blob}
  {seq : Nat} {l : Lease} {issued : List (Nat × Nat)} {q : QueueProjection}

theorem sweepExpired (h : q.leases[seq]? = some l) {now : Int} (hnow : now ≤ l.deadlineMs) :
    (q.sweepExpired now).leases[seq]? = some l := by
  rw [getElem?_leases_sweepExpired, h, Option.filter_some]
  simp [hnow]

theorem heldLoop {node : String} {leaseIds : List (Option Nat)}
    {act : QueueProjection → Nat → Lease → QueueProjection}
    (hact : ∀ q x l, x ≠ seq → (act q x l).leases[seq]? = q.leases[seq]?)
    (named : List (Nat × Nat)) (hseq : ∀ e ∈ named, e.1 ≠ seq)
    (acc : QueueProjection × List (Nat × Nat)) :
    (QueueProjection.heldLoop node leaseIds act named acc).1.leases[seq]? = acc.1.leases[seq]? := by
  induction named generalizing acc with
  | nil => rfl
  | cons e named ih =>
    obtain ⟨x, i⟩ := e
    obtain ⟨q, done⟩ := acc
    have hrest : ∀ e ∈ named, e.1 ≠ seq := fun e he => hseq e (mem_cons_of_mem _ he)
    unfold QueueProjection.heldLoop
    split
    · split
      · exact (ih hrest _).trans (hact q x _ (hseq (x, i) mem_cons_self))
      · exact ih hrest _
    · exact ih hrest _

theorem ne_of_mem_zipIdx {seqs : List Nat} (h : seq ∉ seqs) : ∀ e ∈ seqs.zipIdx, e.1 ≠ seq := by
  rintro ⟨x, i⟩ he rfl
  exact h (fst_mem_of_mem_zipIdx he)

theorem getElem?_erase_ne {m : Std.TreeMap Nat Lease} {x : Nat} (hx : x ≠ seq) :
    (m.erase x)[seq]? = m[seq]? := by
  have hne : compare x seq ≠ .eq := fun h => hx (Nat.compare_eq_eq.mp h)
  simp [getElem?_erase, hne]

theorem nackOne (delayMs : Nat) (now : Int) (q : QueueProjection) (x : Nat) (l : Lease)
    (hx : x ≠ seq) : (q.nackOne delayMs now x l).leases[seq]? = q.leases[seq]? := by
  unfold QueueProjection.nackOne
  simp only
  split
  · exact getElem?_erase_ne hx
  · rw [pushReclaim_leases]
    exact getElem?_erase_ne hx

theorem extendOne (deadline : Int) (q : QueueProjection) (x : Nat) (l : Lease) (hx : x ≠ seq) :
    (q.extendOne deadline x l).leases[seq]? = q.leases[seq]? := by
  have hne : compare x seq ≠ .eq := fun h => hx (Nat.compare_eq_eq.mp h)
  simp [QueueProjection.extendOne, Std.TreeMap.getElem?_insert, hne]

theorem releaseConn (h : q.leases[seq]? = some l) (hconn : l.byWorkConn = none) (conn : Nat) :
    (q.releaseConn conn).1.leases[seq]? = some l := by
  rw [releaseConn_eq_foldl, (foldl_dropLease_fields _ q).2.2 seq,
    if_neg, h]
  intro hmem
  obtain ⟨⟨x, l'⟩, hl', rfl⟩ := mem_map.mp hmem
  obtain ⟨hl', hof⟩ := mem_filter.mp hl'
  rw [mem_toList_iff_getElem?_eq_some, h] at hl'
  cases hl'
  simp [hconn] at hof

/-- **A claim pass does not hand out a leased job.** -/
theorem claimPass (h : q.leases[seq]? = some l) {now : Int} (hnow : now ≤ l.deadlineMs)
    (ix : TopicIndex) (head : Nat) (claimers : List Claimer) (terms : ClaimTerms) :
    (runClaimCohort q ix head claimers terms now).q.leases[seq]? = some l ∧
      ∀ e ∈ (runClaimCohort q ix head claimers terms now).deliveries, e.1 ≠ seq := by
  unfold runClaimCohort
  refine ClaimPass.claimLoop_induct
    (P := fun st => st.q.leases[seq]? = some l ∧ ∀ e ∈ st.deliveries, e.1 ≠ seq)
    (fun _ _ h => h) ?_ ?_ ?_ _ ⟨sweepExpired h hnow, nofun⟩
  · rintro st q rr hP hnext
    obtain ⟨_, _, rfl⟩ := nextClaimable_eq hnext
    exact hP
  · rintro st q rr x hP hnext -
    obtain ⟨_, _, rfl⟩ := nextClaimable_eq hnext
    exact hP
  · rintro st q rr x ⟨hheld, hne⟩ hnext -
    have hidle := (nextClaimable_some hnext).2.1.1.2
    obtain ⟨_, _, rfl⟩ := nextClaimable_eq hnext
    have hx : x ≠ seq := by
      rintro rfl
      rw [Std.TreeMap.contains_eq_isSome_getElem?, hheld] at hidle
      cases hidle
    have hcmp : compare x seq ≠ .eq := fun h => hx (Nat.compare_eq_eq.mp h)
    refine ⟨?_, fun e he => ?_⟩
    · simp only [ClaimPass.lease, Std.TreeMap.getElem?_insert, hcmp, if_false]
      exact hheld
    · simp only [ClaimPass.deliveries, ClaimPass.lease, map_append, mem_append,
        map_cons, map_nil, mem_singleton] at he
      rcases he with he | rfl
      · exact hne e he
      · exact hx

/-- **One call.** -/
theorem step (h : StillHeld seq l issued s) (hconn : l.byWorkConn = none) {c : LeaseCall}
    (hspares : Spares seq l.deadlineMs s c) (hstep : s.step S resolve c = some s') :
    StillHeld seq l issued s' := by
  obtain ⟨⟨q, hq, hl⟩, hund⟩ := h
  cases c with
  | write records now =>
    cases hstep
    exact ⟨⟨q, (Quietly.write S s.run records now).queue.trans hq, hl⟩, hund⟩
  | claim claimers leaseMs now =>
    simp only [LeaseRun.step, (Quietly.retain s.run now).queue, hq, Option.map_some,
      Option.some.injEq] at hstep
    subst hstep
    obtain ⟨hheld, hne⟩ := claimPass hl hspares (s.run.retain now).topic.index
      (s.run.retain now).topic.headSeq claimers
      ((s.run.retain now).claimTerms ((s.run.retain now).claimDeadline leaseMs now))
    refine ⟨⟨_, ?_, hheld⟩, ?_⟩
    · simp only [logLeases_topic]
      exact (Quietly.deleteAll _ now _).queue
    · obtain ⟨more, hmore, hund⟩ := hund
      refine ⟨more ++ _, ?_, forall_mem_append.mpr ⟨hund, hne⟩⟩
      rw [hmore, append_assoc]
  | ack node seqs leaseIds now =>
    simp only [LeaseRun.step, hq, Option.map_some] at hstep
    obtain ⟨-, ⟨⟩⟩ := Option.ite_none_left_eq_some.mp hstep
    refine ⟨⟨(q.ackLeases node seqs leaseIds now).1, ?_, ?_⟩, hund⟩
    · have hlogs : Logs [] (s.run.setQueue (q.ackLeases node seqs leaseIds now).1) _ :=
        .ackAll _ node now (q.ackLeases node seqs leaseIds now).2
      exact hlogs.queue
    · unfold ackLeases
      rw [ackLoop_eq_heldLoop]
      refine (heldLoop (fun q x l hx => ?_) _ (ne_of_mem_zipIdx hspares.1) _).trans
        (sweepExpired hl hspares.2)
      exact getElem?_erase_ne hx
  | nack node seqs leaseIds delayMs now =>
    simp only [LeaseRun.step, hq, Option.map_some] at hstep
    split at hstep
    · cases hstep
    · cases hstep
      refine ⟨⟨_, by rw [logLeases_topic]; rfl, ?_⟩, hund⟩
      exact (heldLoop (nackOne delayMs now) _ (ne_of_mem_zipIdx hspares.1) _).trans
        (sweepExpired hl hspares.2)
  | extend node seqs leaseIds leaseMs now =>
    simp only [LeaseRun.step, hq, Option.map_some] at hstep
    split at hstep
    · cases hstep
    · cases hstep
      refine ⟨⟨_, by rw [logLeases_topic]; rfl, ?_⟩, hund⟩
      exact (heldLoop (extendOne _) _ (ne_of_mem_zipIdx hspares.1) _).trans
        (sweepExpired hl hspares.2)
  | release conn now =>
    simp only [LeaseRun.step, hq, Option.map_some, Option.some.injEq] at hstep
    subst hstep
    exact ⟨⟨_, by rw [logLeases_topic]; rfl, releaseConn hl hconn conn⟩, hund⟩
  | snapshot now =>
    cases hstep
    have hquiet : Quietly s.run ((s.run.logDurable [.checkpointMark 0 now.toNat]).retain now) :=
      (Quietly.logDurable s.run (by simp [Silent])).trans (Quietly.retain _ now)
    exact ⟨⟨q, hquiet.queue.trans hq, hl⟩, hund⟩
  | crash kept => exact hspares.elim

end StillHeld

/-- The lease `l` on `seq` is in the projection of `s`, with the delivery count it had in `q`. -/
def Recovered (q : QueueProjection) (seq : Nat) (l : Lease) (s : LeaseRun Blob) : Prop :=
  ∃ q' l', s.run.topic.queue = some q' ∧ q'.leases[seq]? = some l' ∧ l'.node = l.node ∧
    l'.leaseId = l.leaseId ∧ l'.deadlineMs = l.deadlineMs ∧ q'.deliveries[seq]? = q.deliveries[seq]?

section Survive

variable {S : Serde Blob} {resolve : Nat → Value × Option Value} {s s' : LeaseRun Blob}

/-- **Which durable leases survive a restart.**  On an `fsync` queue with `leases_durable`, after
any history of calls, snapshots and crashes, a lease with a deadline behind the clock is recovered
with its node, id, deadline and delivery count if and only if the frame of its claim lies behind
the last snapshot; and then no claim before the deadline hands the job out. -/
theorem durable_leases_survive (hS : S.RoundTrips) {spec : TopicSpec}
    (hqueue : spec.config.isQueue = true) (hclass : spec.config.durabilityClass = .fsync)
    (hleases : spec.config.leasesDurable = true) {calls : List LeaseCall}
    (hrun : exec (step S resolve) (start spec) calls = some s) {q : QueueProjection}
    (hq : s.run.topic.queue = some q) {seq : Nat} {l : Lease} (hl : q.leases[seq]? = some l)
    {clock : Int} (hclock : 0 ≤ clock) (hdeadline : clock < l.deadlineMs) {kept : Nat}
    (hcrash : s.step S resolve (.crash kept) = some s') :
    (Recovered q seq l s' ↔ known s.run.log (seq, l.leaseId)) ∧
      (known s.run.log (seq, l.leaseId) → ∀ more s'',
        Along (step S resolve) (Spares seq l.deadlineMs) s' more →
        exec (step S resolve) s' more = some s'' →
        ∃ issued, s''.issued = s'.issued ++ issued ∧ ∀ e ∈ issued, e.1 ≠ seq) := by
  have hinv : Shadowed s := exec_invariant _ (I := Shadowed) (fun _ _ _ h hs => h.step hS hs)
    (shadowed_start hqueue hclass hleases) hrun
  -- the recovered projection is the fold of the whole log
  have hrecovered : s'.run.topic.queue = some (folded s.run.log) := by
    obtain ⟨hkept, ⟨⟩⟩ := Option.ite_none_right_eq_some.mp hcrash
    rw [← folded_take hinv.tail hkept]
    exact recoverFrom_queue_some S hinv.persistent hinv.base _
  have hcopy : known s.run.log (seq, l.leaseId) → ∃ l',
      (folded s.run.log).leases[seq]? = some l' ∧ l'.node = l.node ∧ l'.leaseId = l.leaseId ∧
        l'.deadlineMs = l.deadlineMs ∧
        (folded s.run.log).deliveries[seq]? = q.deliveries[seq]? := fun hknown => by
    obtain ⟨l', hl', hnode, hid, hdead, hdel⟩ := hinv.mirrored q hq seq l hl hknown
    exact ⟨l', hl', hnode, hid, hdead (by omega), hdel⟩
  refine ⟨⟨?_, fun hknown => ?_⟩, fun hknown more s'' halong hmore => ?_⟩
  · rintro ⟨q', l', hq', hl', -, hid, -⟩
    cases hrecovered.symm.trans hq'
    rw [← hid]
    exact (granted_of_folded hl').1
  · obtain ⟨l', hl'⟩ := hcopy hknown
    exact ⟨_, l', hrecovered, hl'⟩
  · obtain ⟨l', hl', -, -, hdead, -⟩ := hcopy hknown
    rw [← hdead] at halong
    have hstart : StillHeld seq l' s'.issued s' :=
      ⟨⟨_, hrecovered, hl'⟩, [], (append_nil _).symm, forall_mem_nil _⟩
    exact (exec_invariant_along _ (I := StillHeld seq l' s'.issued)
      (fun _ _ _ h hc hs => h.step (granted_of_folded hl').2 hc hs) hstart halong hmore).undelivered

end Survive

/-- Node `a` claims the job behind a snapshot and extends its lease. -/
def extendedBehindSnapshot : List LeaseCall :=
  [.write [emptyJob] 0, .snapshot 5, claimOne "a" 10, .extend "a" [1] [some 1] 60000 20]

theorem durable_leases_survive_extended :
    ∃ s s' s'' q l,
      exec (step Serde.identity fun _ => (.null, none)) (start (leasing true))
        extendedBehindSnapshot = some s ∧
      s.run.topic.queue = some q ∧ q.leases[1]? = some l ∧ l.deadlineMs = 60020 ∧
      s.step Serde.identity (fun _ => (.null, none)) (.crash 2) = some s' ∧ Recovered q 1 l s' ∧
      exec (step Serde.identity fun _ => (.null, none)) s' [claimOne "b" 60020] = some s'' ∧
      ∃ issued, s''.issued = s'.issued ++ issued ∧ ∀ e ∈ issued, e.1 ≠ 1 := by
  obtain ⟨s, s', s'', q, l, hs, hq, hl, hdeadline, hknown, hs', halong, hs''⟩ :
      ∃ s s' s'' q l, exec (step Serde.identity fun _ => (.null, none)) (start (leasing true))
          extendedBehindSnapshot = some s ∧
        s.run.topic.queue = some q ∧ q.leases[1]? = some l ∧ l.deadlineMs = 60020 ∧
        (∃ f ∈ s.run.log, grants (1, l.leaseId) f = true) ∧
        s.step Serde.identity (fun _ => (.null, none)) (.crash 2) = some s' ∧
        Along (step Serde.identity fun _ => (.null, none)) (Spares 1 l.deadlineMs) s'
          [claimOne "b" 60020] ∧
        exec (step Serde.identity fun _ => (.null, none)) s' [claimOne "b" 60020] = some s'' :=
    ⟨_, _, _, _, _, rfl, rfl, rfl, by decide +kernel, by decide +kernel, rfl, by decide +kernel, rfl⟩
  have hlater : (60000 : Int) < l.deadlineMs := by
    rw [hdeadline]
    decide
  have hsurvive := durable_leases_survive Serde.identity_roundTrips rfl rfl rfl hs hq hl
    (by decide) hlater hs'
  exact ⟨s, s', s'', q, l, hs, hq, hl, hdeadline, hs', hsurvive.1.mpr hknown, hs'',
    hsurvive.2 hknown _ _ halong hs''⟩

/-- A snapshot behind the claim loses the lease, and node `b` gets the job ten milliseconds later. -/
theorem durable_lease_lost_behind_snapshot :
    ∃ s s' s'' q l,
      exec (step Serde.identity fun _ => (.null, none)) (start (leasing true))
        [.write [emptyJob] 0, claimOne "a" 10, .snapshot 15] = some s ∧
      s.run.topic.queue = some q ∧ q.leases[1]? = some l ∧ l.deadlineMs = 30010 ∧
      s.step Serde.identity (fun _ => (.null, none)) (.crash 0) = some s' ∧ ¬ Recovered q 1 l s' ∧
      exec (step Serde.identity fun _ => (.null, none)) s' [claimOne "b" 20] = some s'' ∧
      s''.issued = s'.issued ++ [(1, 1)] := by
  obtain ⟨s, s', s'', q, q', l, hs, hq, hl, hdeadline, hs', hq', hnone, hs'', hissued⟩ :
      ∃ s s' s'' q q' l, exec (step Serde.identity fun _ => (.null, none)) (start (leasing true))
          [.write [emptyJob] 0, claimOne "a" 10, .snapshot 15] = some s ∧
        s.run.topic.queue = some q ∧ q.leases[1]? = some l ∧ l.deadlineMs = 30010 ∧
        s.step Serde.identity (fun _ => (.null, none)) (.crash 0) = some s' ∧
        s'.run.topic.queue = some q' ∧ q'.leases[1]? = none ∧
        exec (step Serde.identity fun _ => (.null, none)) s' [claimOne "b" 20] = some s'' ∧
        s''.issued = s'.issued ++ [(1, 1)] :=
    ⟨_, _, _, _, _, _, rfl, rfl, rfl, by decide +kernel, rfl, rfl, by decide +kernel, rfl,
      by decide +kernel⟩
  refine ⟨s, s', s'', q, l, hs, hq, hl, hdeadline, hs', ?_, hs'', hissued⟩
  rintro ⟨q'', l', hq'', hl', -⟩
  cases hq'.symm.trans hq''
  rw [hnone] at hl'
  cases hl'

end LeaseRun

end Topics
