import Topics.Lib.Tally
import Topics.Types

/-!
# Connection slots

`LiveCounts` (`limits.rs`) keeps a gauge of the open streams, one of the streams of every api key, and
one of the requests of every key that are in progress.  A stream takes its global slot with a
compare-and-swap loop and then the slot of its key; if there is none the global slot goes back.  What
was taken is released by a guard when the stream or the request ends, however it ends.

The global gauge is ahead of the guards while an attempt is between its two slots, and the gauge of a
key while a guard is between the two halves of its `drop`.
-/

namespace Topics.Connections

open Lib List

/-- What is counted by key: open streams, and requests in progress. -/
inductive Kind where
  | sse
  | inflight
  deriving DecidableEq

/-- The caps on connections and requests; `0` is no cap. -/
structure Limits where
  maxSseConnections : Nat
  /-- `max_sse_connections_per_key` and `max_inflight_per_key`. -/
  maxPerKey : Kind → Nat

/-- The 32 bytes of the SHA-256 digest of a key. -/
structure KeyId where
  digest : BitVec 256
  deriving DecidableEq

/-- The key that stands for none in an `InflightGuard`. -/
def KeyId.zero : KeyId := ⟨0⟩

/-- The maps `sse_per_key` and `inflight_per_key`. -/
abbrev KeyGauges := Kind × KeyId → Option Nat

structure LiveCounts where
  sseTotal : Nat
  perKey : KeyGauges

/-- `bump_per_key`, and whether there was room. -/
def bumpPerKey (m : KeyGauges) (q : Kind × KeyId) (cap : Nat) : KeyGauges × Bool :=
  let n := (m q).getD 0
  if cap ≠ 0 ∧ cap ≤ n then (Function.update m q (some n), false)
  else (Function.update m q (some (n + 1)), true)

/-- `drop_per_key`. -/
def dropPerKey (m : KeyGauges) (q : Kind × KeyId) : KeyGauges :=
  match m q with
  | none => m
  | some v => Function.update m q (if v - 1 = 0 then none else some (v - 1))

inductive ConnInstr where
  /-- `try_acquire_sse`, the global slot. -/
  | load (key : Option KeyId)
  | exchange (key : Option KeyId) (cur : Nat)
  /-- The slot of a key, for a stream or in `try_acquire_inflight`. -/
  | bump (kind : Kind) (k : KeyId)
  | rollBack
  /-- The stream runs, with its `SseGuard`; the step is the first half of the guard's `drop`. -/
  | stream (key : Option KeyId)
  | dropKey (k : KeyId)
  /-- The request runs, with its `InflightGuard`; the step is the guard's `drop`. -/
  | serve (key : Option KeyId)
  deriving DecidableEq

/-- The stream has its global slot. -/
def ConnInstr.afterTotal : Option KeyId → ConnInstr
  | none => .stream none
  | some k => .bump .sse k

def sem (limits : Limits) (s : LiveCounts) (_ : Nat) (ok : Bool) :
    ConnInstr → Option (Outcome LiveCounts ConnInstr)
  | .load key =>
    some (if limits.maxSseConnections = 0 then .next { s with sseTotal := s.sseTotal + 1 } [.afterTotal key]
      else .next s [.exchange key s.sseTotal])
  | .exchange key cur =>
    -- a weak exchange may fail although the value is the expected one
    some (if limits.maxSseConnections ≤ cur then .next s []
      else if s.sseTotal = cur ∧ ok then .next { s with sseTotal := cur + 1 } [.afterTotal key]
      else .next s [.exchange key s.sseTotal])
  | .bump kind k =>
    let gauge := bumpPerKey s.perKey (kind, k) (limits.maxPerKey kind)
    some (.next { s with perKey := gauge.1 } (match kind, gauge.2 with
      | .sse, true => [.stream (some k)]
      | .sse, false => [.rollBack]
      | .inflight, true => [.serve (some k)]
      | .inflight, false => []))
  | .rollBack => some (.next { s with sseTotal := s.sseTotal - 1 } [])
  | .stream key => some (.next { s with sseTotal := s.sseTotal - 1 } (key.toList.map .dropKey))
  | .dropKey k => some (.next { s with perKey := dropPerKey s.perKey (.sse, k) } [])
  | .serve key =>
    some (.next { s with perKey := dropPerKey s.perKey (.inflight, key.getD .zero) } [])

/-- An attempt to open a stream, or a request; a server without keys has none to count for. -/
inductive ConnCall where
  | openStream (key : Option KeyId)
  | request (key : Option KeyId)

def ConnCall.body : ConnCall → List ConnInstr
  | openStream key => [.load key]
  | request none => [.serve none]
  | request (some k) => [.bump .inflight k]

abbrev ConnRun := Threads LiveCounts ConnInstr

abbrev ConnRun.step (limits : Limits) (s : ConnRun) (a : ThreadAction ConnCall Bool) : Option ConnRun :=
  Threads.step ConnCall.body (sem limits) s a

def ConnRun.new : ConnRun := ⟨⟨0, fun _ => none⟩, fun _ => []⟩

/-! ## Who holds a slot -/

def ConnInstr.holdsTotal : ConnInstr → Bool
  | .bump .sse _ | .rollBack | .stream _ => true
  | _ => false

def ConnInstr.holdsKey (q : Kind × KeyId) : ConnInstr → Bool
  | .stream (some k) | .dropKey k => q = (.sse, k)
  | .serve (some k) => q = (.inflight, k)
  | _ => false

/-- The gauges with the given counts: a key without any has no entry. -/
def gaugeOf (n : Kind × KeyId → Nat) : KeyGauges := fun q => if n q = 0 then none else some (n q)

theorem bumpPerKey_gaugeOf (n : Kind × KeyId → Nat) (q : Kind × KeyId) (cap : Nat) :
    bumpPerKey (gaugeOf n) q cap = if cap ≠ 0 ∧ cap ≤ n q then (gaugeOf n, false)
      else (gaugeOf (Function.update n q (n q + 1)), true) := by
  have hget : (gaugeOf n q).getD 0 = n q := by
    unfold gaugeOf
    split <;> simp [*]
  simp only [bumpPerKey, hget]
  split
  · rename_i hcap
    have hpos : n q ≠ 0 := by omega
    rw [Function.update_eq_self_iff.mpr (if_neg hpos).symm]
  · congr 1
    funext q'
    by_cases hq : q' = q <;> simp [gaugeOf, hq]

theorem dropPerKey_gaugeOf (n : Kind × KeyId → Nat) (q : Kind × KeyId) :
    dropPerKey (gaugeOf n) q = gaugeOf (Function.update n q (n q - 1)) := by
  funext q'
  by_cases hq : q' = q <;> by_cases hn : n q = 0 <;> simp [dropPerKey, gaugeOf, hq, hn]

/-! ## Every interleaving -/

/-- Every slot in a gauge is held by a thread, and no cap is exceeded. -/
structure Settled (limits : Limits) (s : ConnRun) (n : Kind × KeyId → Nat) : Prop where
  gauges : s.shared.perKey = gaugeOf n
  single : ∀ t, (s.code t).length ≤ 1
  total : Tally (countP ConnInstr.holdsTotal) s.code s.shared.sseTotal
  keys : ∀ q, Tally (countP (ConnInstr.holdsKey q)) s.code (n q)
  total_le : limits.maxSseConnections ≠ 0 → s.shared.sseTotal ≤ limits.maxSseConnections
  keys_le : ∀ q, limits.maxPerKey q.1 ≠ 0 → n q ≤ limits.maxPerKey q.1
  /-- Nothing is ever counted for the key that stands for none. -/
  unkeyed : n (.inflight, .zero) = 0

/-- The condition on a step: the digest of no key is zero. -/
def Attributed (_ : LiveCounts) (_ : Nat) (i : ConnInstr) : Prop := i ≠ .bump .inflight .zero

instance (s : LiveCounts) (t : Nat) (i : ConnInstr) : Decidable (Attributed s t i) :=
  inferInstanceAs (Decidable (_ ≠ _))

variable {limits : Limits} {s s' : ConnRun} {n n' : Kind × KeyId → Nat} {t : Nat} {i : ConnInstr}
  {c : List ConnInstr}

theorem Settled.new (limits : Limits) : Settled limits .new fun _ => 0 :=
  ⟨rfl, fun _ => Nat.zero_le 1, .zero fun _ => rfl, fun _ => .zero fun _ => rfl,
    fun _ => Nat.zero_le _, fun _ _ => Nat.zero_le _, rfl⟩

/-- A thread goes on with `c`, and the counts follow. -/
theorem Settled.move (h : Settled limits s n) (hlen : c.length ≤ 1) {total : Nat}
    (htotal : total + countP ConnInstr.holdsTotal (s.code t) =
      s.shared.sseTotal + countP ConnInstr.holdsTotal c)
    (hkeys : ∀ q, n' q + countP (ConnInstr.holdsKey q) (s.code t) =
      n q + countP (ConnInstr.holdsKey q) c)
    (htotal_le : limits.maxSseConnections ≠ 0 → total ≤ limits.maxSseConnections)
    (hkeys_le : ∀ q, limits.maxPerKey q.1 ≠ 0 → n' q ≤ limits.maxPerKey q.1)
    (hzero : n' (.inflight, .zero) = 0) :
    Settled limits ⟨⟨total, gaugeOf n'⟩, Function.update s.code t c⟩ n' :=
  ⟨rfl, (Function.forall_update_iff s.code fun _ c => c.length ≤ 1).mpr ⟨hlen, fun t' _ => h.single t'⟩,
    h.total.update htotal, fun q => (h.keys q).update (hkeys q), htotal_le, hkeys_le, hzero⟩

attribute [local simp] Outcome.code Outcome.shared ConnInstr.holdsTotal ConnInstr.holdsKey
  ConnInstr.afterTotal

/-- One instruction of a thread, which has no other left. -/
theorem Settled.run (h : Settled limits s n) {ok : Bool} {o : Outcome LiveCounts ConnInstr}
    (hcode : s.code t = [i]) (hkey : Attributed s.shared t i)
    (ho : sem limits s.shared t ok i = some o) :
    ∃ n', Settled limits ⟨o.shared, Function.update s.code t (o.code [])⟩ n' := by
  obtain ⟨⟨total, perKey⟩, code⟩ := s
  obtain rfl : perKey = gaugeOf n := h.gauges
  replace hcode : code t = [i] := hcode
  -- one slot less of a key that the thread holds a slot of
  have hless : ∀ q, 0 < n q → ∀ q', (Function.update n q (n q - 1) q') + (if q' = q then 1 else 0) = n q' := by
    intro q hpos q'
    by_cases hq : q' = q <;> simp [hq]
    omega
  have hless_le : ∀ q q', limits.maxPerKey q'.1 ≠ 0 →
      Function.update n q (n q - 1) q' ≤ limits.maxPerKey q'.1 := by
    intro q q' hcap
    have hle := h.keys_le q' hcap
    by_cases hq : q' = q
    · subst hq
      simp
      omega
    · simpa [hq] using hle
  cases i with
  | load key =>
    cases ho
    split
    · rename_i hmax
      refine ⟨n, h.move (by simp) ?_ ?_ (fun hpos => absurd hmax hpos) h.keys_le h.unkeyed⟩ <;>
        cases key <;> simp [hcode]
    · exact ⟨n, h.move (by simp) (by simp [hcode]) (by simp [hcode]) h.total_le h.keys_le h.unkeyed⟩
  | exchange key cur =>
    cases ho
    split
    · exact ⟨n, h.move (by simp) (by simp [hcode]) (by simp [hcode]) h.total_le h.keys_le h.unkeyed⟩
    · rename_i hcur
      split
      · rename_i hsame
        refine ⟨n, h.move (by simp) ?_ ?_ (fun _ => Nat.lt_of_not_le hcur) h.keys_le h.unkeyed⟩ <;>
          cases key <;> simp [hcode, ← hsame.1]
      · exact ⟨n, h.move (by simp) (by simp [hcode]) (by simp [hcode]) h.total_le h.keys_le h.unkeyed⟩
  | bump kind k =>
    simp only [sem, bumpPerKey_gaugeOf, Option.some.injEq] at ho
    subst ho
    split
    · refine ⟨n, h.move ?_ ?_ ?_ h.total_le h.keys_le h.unkeyed⟩ <;> cases kind <;> simp [hcode]
    · rename_i hcap
      refine ⟨_, h.move ?_ ?_ (fun q => ?_) h.total_le (fun q hq => ?_) ?_⟩
      · cases kind <;> simp
      · cases kind <;> simp [hcode]
      · by_cases hq : q = (kind, k) <;> cases kind <;> simp [hcode, hq]
      · by_cases hk : q = (kind, k)
        · subst hk
          rw [Function.update_self]
          exact Nat.succ_le_of_lt (Nat.lt_of_not_le fun hle => hcap ⟨hq, hle⟩)
        · simpa [hk] using h.keys_le q hq
      · rw [Function.update_of_ne, h.unkeyed]
        intro hk
        cases hk
        exact hkey rfl
  | rollBack =>
    cases ho
    have hpos : 0 < total := h.total.pos (t := t) (by simp [hcode])
    exact ⟨n, h.move (by simp) (by simp [hcode]; omega) (by simp [hcode])
      (fun hmax => (Nat.sub_le _ _).trans (h.total_le hmax)) h.keys_le h.unkeyed⟩
  | stream key =>
    cases ho
    have hpos : 0 < total := h.total.pos (t := t) (by simp [hcode])
    refine ⟨n, h.move ?_ ?_ ?_ (fun hmax => (Nat.sub_le _ _).trans (h.total_le hmax)) h.keys_le
      h.unkeyed⟩ <;> cases key <;> simp [hcode] <;> omega
  | dropKey k =>
    simp only [sem, dropPerKey_gaugeOf, Option.some.injEq] at ho
    subst ho
    have hpos := (h.keys (.sse, k)).pos (t := t) (by simp [hcode])
    refine ⟨_, h.move (by simp) (by simp [hcode]) (fun q => ?_) h.total_le (hless_le _) ?_⟩
    · simpa [hcode] using hless _ hpos q
    · simp [h.unkeyed]
  | serve key =>
    simp only [sem, dropPerKey_gaugeOf, Option.some.injEq] at ho
    subst ho
    cases key with
    | none =>
      -- the guard drops a slot of the zero key, which has none
      have hsame : Function.update n (.inflight, .zero) (n (.inflight, .zero) - 1) = n := by
        rw [Function.update_eq_self_iff, h.unkeyed]
      rw [Option.getD_none, hsame]
      exact ⟨n, h.move (by simp) (by simp [hcode]) (by simp [hcode]) h.total_le h.keys_le h.unkeyed⟩
    | some k =>
      have hpos := (h.keys (.inflight, k)).pos (t := t) (by simp [hcode])
      refine ⟨_, h.move (by simp) (by simp [hcode]) (fun q => ?_) h.total_le (hless_le _) ?_⟩
      · simpa [hcode] using hless _ hpos q
      · have := hless _ hpos (.inflight, .zero)
        rw [h.unkeyed] at this
        exact (Nat.add_eq_zero_iff.mp this).1

theorem Settled.step {a : ThreadAction ConnCall Bool} (h : Settled limits s n)
    (hkey : Threads.OnRun Attributed s a) (hstep : s.step limits a = some s') :
    ∃ n', Settled limits s' n' := by
  obtain ⟨t, c, rfl, hcode, rfl⟩ | ⟨t, ok, i, rest, o, rfl, hcode, ho, rfl⟩ :=
    Threads.step_cases _ _ hstep
  · refine ⟨n, ?_⟩
    obtain ⟨⟨total, perKey⟩, code⟩ := s
    obtain rfl : perKey = gaugeOf n := h.gauges
    replace hcode : code t = [] := hcode
    refine h.move ?_ ?_ ?_ h.total_le h.keys_le h.unkeyed <;> rcases c with key | _ | k <;>
      simp [hcode, ConnCall.body]
  · have hrest := h.single t
    rw [hcode, length_cons] at hrest
    obtain rfl : rest = [] := length_eq_zero_iff.mp (by omega)
    simp only [Threads.OnRun, hcode] at hkey
    exact h.run hcode hkey ho

/-- **Connection caps.**  In every interleaving of streams and requests, refused or not, of any keys:
no more streams are open than the server allows, no more of one key, and no more requests of one key
are in progress; and once everything has ended no slot is taken and no key is left behind. -/
theorem connection_caps {as : List (ThreadAction ConnCall Bool)}
    (halong : Along (ConnRun.step limits) (Threads.OnRun Attributed) .new as)
    (hrun : exec (ConnRun.step limits) .new as = some s) :
    (∀ T : Finset Nat, limits.maxSseConnections ≠ 0 → (∀ t ∈ T, ∃ key, .stream key ∈ s.code t) →
      T.card ≤ limits.maxSseConnections) ∧
    (∀ (k : KeyId) (T : Finset Nat), limits.maxPerKey .sse ≠ 0 →
      (∀ t ∈ T, .stream (some k) ∈ s.code t) → T.card ≤ limits.maxPerKey .sse) ∧
    (∀ (k : KeyId) (T : Finset Nat), limits.maxPerKey .inflight ≠ 0 →
      (∀ t ∈ T, .serve (some k) ∈ s.code t) → T.card ≤ limits.maxPerKey .inflight) ∧
    ((∀ t, s.code t = []) → s.shared = ConnRun.new.shared) := by
  obtain ⟨n, h⟩ : ∃ n, Settled limits s n :=
    exec_invariant_along (I := fun s => ∃ n, Settled limits s n) _
      (fun _ _ _ hs hkey hstep => hs.elim fun _ hs => hs.step hkey hstep) ⟨_, .new limits⟩ halong hrun
  refine ⟨fun T hmax hT => ?_, fun k T hmax hT => ?_, fun k T hmax hT => ?_, fun hend => ?_⟩
  · refine (h.total.card_le fun t ht => ?_).trans (h.total_le hmax)
    obtain ⟨key, hmem⟩ := hT t ht
    exact countP_pos_iff.mpr ⟨_, hmem, rfl⟩
  · refine ((h.keys (.sse, k)).card_le fun t ht => ?_).trans (h.keys_le (.sse, k) hmax)
    exact countP_pos_iff.mpr ⟨_, hT t ht, by simp⟩
  · refine ((h.keys (.inflight, k)).card_le fun t ht => ?_).trans (h.keys_le (.inflight, k) hmax)
    exact countP_pos_iff.mpr ⟨_, hT t ht, by simp⟩
  · have htotal := h.total.eq_zero fun t => by rw [hend t, countP_nil]
    have hkeys : s.shared.perKey = fun _ => none := by
      rw [h.gauges]
      funext q
      exact if_pos ((h.keys q).eq_zero fun t => by rw [hend t, countP_nil])
    obtain ⟨⟨total, perKey⟩, code⟩ := s
    cases htotal
    cases hkeys
    rfl

/-- Two streams of one key race for its only slot; the loser gives its global slot back, and a third
stream takes it. -/
theorem connection_caps_race :
    let key : Option KeyId := some ⟨7⟩
    let as := [.start 0 (.openStream key), .start 1 (.openStream key), .run 0 true, .run 1 true,
      .run 0 true, .run 1 true, .run 1 true, .run 0 true, .run 1 true, .run 1 true,
      .start 2 (.openStream none), .run 2 true, .run 2 true]
    ((exec (ConnRun.step ⟨2, fun _ => 1⟩) .new as).map fun s =>
        (s.shared.sseTotal, s.code 0, s.code 2)) = some (2, [.stream key], [.stream none]) ∧
      ∀ s ∈ exec (ConnRun.step ⟨2, fun _ => 1⟩) .new as, ∀ T : Finset Nat,
        (2 : Nat) ≠ 0 → (∀ t ∈ T, ∃ key, .stream key ∈ s.code t) → T.card ≤ 2 := by
  refine ⟨?_, fun s hs => (connection_caps ?_ hs).1⟩
  · decide
  · decide

end Topics.Connections
