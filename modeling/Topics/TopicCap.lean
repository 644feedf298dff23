import Mathlib.Algebra.Order.BigOperators.Group.Finset
import Topics.Lib.Threads
import Topics.Types

/-!
# The topic cap

`max_topics` bounds a counter beside the registry, not the registry itself.  A create reserves a slot
of the counter, logs its frame and only then inserts the topic; a delete removes the topic and then
gives the slot back, without the create lock.  Between the two the counter is ahead.
-/

namespace Topics

open Lib Function List

namespace TopicCap

structure SlotState where
  topics : Finset String
  topicCount : Nat
  /-- The thread that holds `create_lock`. -/
  createLock : Option Nat

inductive SlotInstr where
  /-- The auto-creates: `put_topic` if the name is not there. -/
  | ensure (name : String)
  /-- `put_topic`: the validations, then the fast path. -/
  | lookup (name : String)
  /-- The logged update of a topic that exists, under the create lock or not. -/
  | update (locked : Bool)
  | lockCreate (name : String)
  | recheck (name : String)
  /-- `reserve_topic_slot`. -/
  | load (name : String)
  | exchange (name : String) (cur : Nat)
  | logCreate (name : String)
  /-- `insert_reserved_topic`. -/
  | insert (name : String)
  | fetchSub
  /-- `put_topic` returns; an error ends the call it was made for. -/
  | unlock (failed : Bool)
  /-- `delete_topic`. -/
  | find (name : String) (ifEmpty : Bool)
  | checkEmpty
  | logTombstones
  | remove (name : String)
deriving DecidableEq

abbrev SlotStep := Outcome SlotState SlotInstr

namespace SlotState

variable (cap : Nat)

def sem (s : SlotState) (t : Nat) (ok : Bool) : SlotInstr → Option SlotStep
  | .ensure name => some (.next s (if name ∈ s.topics then [] else [.lookup name]))
  | .lookup name =>
    some (if ok then .next s [if name ∈ s.topics then .update false else .lockCreate name]
      else .stop s)
  | .update true => some (.next s [.unlock !ok])
  | .update false => some (if ok then .next s [] else .stop s)
  | .lockCreate name =>
    if s.createLock = none then some (.next { s with createLock := some t } [.recheck name])
    else none
  | .recheck name => some (.next s [if name ∈ s.topics then .update true else .load name])
  | .load name =>
    some (if cap = 0 then .next { s with topicCount := s.topicCount + 1 } [.logCreate name]
      else .next s [.exchange name s.topicCount])
  | .exchange name cur =>
    some (if cap ≤ cur then .next s [.unlock true]
      else if s.topicCount = cur ∧ ok then
        .next { s with topicCount := cur + 1 } [.logCreate name]
      else .next s [.exchange name s.topicCount])
  | .logCreate name => some (.next s (if ok then [.insert name] else [.fetchSub, .unlock true]))
  | .insert name =>
    some (if name ∈ s.topics then .next s [.fetchSub, .unlock !ok]
      else .next { s with topics := Insert.insert name s.topics } [.unlock false])
  | .fetchSub => some (.next { s with topicCount := s.topicCount - 1 } [])
  | .unlock failed =>
    some (if failed then .stop { s with createLock := none }
      else .next { s with createLock := none } [])
  | .find name ifEmpty =>
    some (if name ∈ s.topics then
        .next s ((if ifEmpty then [.checkEmpty] else []) ++ [.logTombstones, .remove name])
      else .stop s)
  | .checkEmpty | .logTombstones => some (if ok then .next s [] else .stop s)
  | .remove name =>
    some (if name ∈ s.topics then .next { s with topics := s.topics.erase name } [.fetchSub]
      else .next s [])

end SlotState

inductive SlotCall where
  | putTopic (name : String)
  /-- `write`, where it may create its topic. -/
  | write (name : String)
  | putRouter (source dest : String)
  | deadLetter (name : String)
  | deleteTopic (name : String) (ifEmpty : Bool)

def SlotCall.body : SlotCall → List SlotInstr
  | putTopic name => [.lookup name]
  | write name | deadLetter name => [.ensure name]
  | putRouter source dest => [.ensure source, .ensure dest]
  | deleteTopic name ifEmpty => [.find name ifEmpty]

abbrev SlotRun := Threads SlotState SlotInstr

abbrev SlotRun.step (cap : Nat) (s : SlotRun) (a : ThreadAction SlotCall Bool) : Option SlotRun :=
  Threads.step SlotCall.body (SlotState.sem cap) s a

def SlotRun.empty : SlotRun := ⟨⟨∅, 0, none⟩, fun _ => []⟩

/-! ## Slots in the hands of a thread -/

/-- Before this step its thread owns a slot that no topic stands for. -/
def SlotInstr.owns : SlotInstr → Bool
  | .logCreate _ | .insert _ | .fetchSub => true
  | _ => false

def owned (code : List SlotInstr) : Nat := code.countP SlotInstr.owns

attribute [local simp] Outcome.code SlotInstr.owns

@[simp] theorem owned_nil : owned [] = 0 := rfl

@[simp] theorem owned_cons (i : SlotInstr) (code : List SlotInstr) :
    owned (i :: code) = i.owns.toNat + owned code := by
  rw [owned, countP_cons, Nat.add_comm]
  cases i.owns <;> rfl

theorem owned_body (c : SlotCall) : owned c.body = 0 := by
  cases c <;> rfl

variable {cap : Nat} {s : SlotState} {t : Nat} {ok : Bool} {i : SlotInstr} {rest : List SlotInstr}
  {o : SlotStep}

/-- **The balance of one step**: what the counter gains, the registry or the thread gains.  Owners
come first in their code, so what follows them owns nothing either before or after. -/
theorem balance (hown : i.owns = true → 0 < s.topicCount) (hrest : owned rest = 0)
    (ho : s.sem cap t ok i = some o) :
    o.shared.topicCount + (s.topics.card + i.owns.toNat) =
        s.topicCount + (o.shared.topics.card + owned (o.code rest)) ∧
      owned (o.code rest).tail = 0 := by
  have htail : owned rest.tail = 0 := by
    cases rest with
    | nil => rfl
    | cons j code => exact (Nat.add_eq_zero_iff.mp (owned_cons j code ▸ hrest)).2
  cases i with
  | lockCreate name =>
    obtain ⟨-, ho⟩ := Option.ite_none_right_eq_some.mp ho
    cases ho
    simp [hrest]
  | fetchSub =>
    cases ho
    have hpos := hown rfl
    simp [hrest, htail]
    omega
  | insert name =>
    cases ho
    split
    · simp [hrest]
    · rename_i hnew
      simp [hrest, Finset.card_insert_of_notMem hnew]
  | remove name =>
    cases ho
    split
    · rename_i hmem
      simp [hrest, ← Finset.card_erase_add_one hmem]
    · simp [hrest, htail]
  | exchange name cur =>
    cases ho
    split
    · simp [hrest]
    · split
      · rename_i hcur
        simp [hrest, hcur.1]
        omega
      · simp [hrest]
  | load name =>
    cases ho
    split
    · simp [hrest]
      omega
    · simp [hrest]
  | update locked =>
    cases locked <;> cases ok <;> cases ho <;> simp [hrest, htail]
  | find name ifEmpty =>
    cases ho
    split
    · cases ifEmpty <;> simp [hrest]
    · simp
  | unlock failed =>
    cases failed <;> cases ho <;> simp [hrest, htail]
  | ensure name | recheck name =>
    cases ho
    by_cases hmem : name ∈ s.topics <;> simp [hrest, htail, hmem]
  | lookup name =>
    cases ho
    by_cases hmem : name ∈ s.topics <;> cases ok <;>
      simp [hrest, hmem]
  | _ =>
    cases ok <;> cases ho <;> simp [hrest, htail]

theorem capped (hcap : 0 < cap) (h : s.topicCount ≤ cap) (ho : s.sem cap t ok i = some o) :
    o.shared.topicCount ≤ cap := by
  cases i with
  | lockCreate name =>
    obtain ⟨-, ho⟩ := Option.ite_none_right_eq_some.mp ho
    cases ho
    exact h
  | load name =>
    cases ho
    rw [if_neg hcap.ne']
    exact h
  | exchange name cur =>
    cases ho
    split
    · exact h
    · rename_i hcur
      split
      · exact Nat.succ_le_of_lt (Nat.lt_of_not_le hcur)
      · exact h
  | fetchSub =>
    cases ho
    exact (Nat.sub_le _ _).trans h
  | update locked =>
    cases locked <;> cases ok <;> cases ho <;> exact h
  | _ =>
    cases ho
    first | exact h | (split <;> exact h)

/-! ## Runs -/

/-- Every slot of the counter is a topic's, or a thread owns it. -/
structure Booked (s : SlotRun) : Prop where
  tail : ∀ t, owned (s.code t).tail = 0
  slots : ∃ T : Finset Nat, (∀ t ∉ T, owned (s.code t) = 0) ∧
    s.shared.topicCount = s.shared.topics.card + ∑ t ∈ T, owned (s.code t)

theorem Booked.move {s : SlotRun} (h : Booked s) {s₁ : SlotState} {code : List SlotInstr}
    (htail : owned code.tail = 0)
    (hbal : s₁.topicCount + (s.shared.topics.card + owned (s.code t)) =
      s.shared.topicCount + (s₁.topics.card + owned code)) :
    Booked ⟨s₁, update s.code t code⟩ := by
  obtain ⟨T, hout, hcount⟩ := h.slots
  refine ⟨(forall_update_iff s.code fun _ code => owned code.tail = 0).mpr
    ⟨htail, fun t' _ => h.tail t'⟩, Insert.insert t T, fun t' ht' => ?_, ?_⟩
  · rw [Finset.mem_insert, not_or] at ht'
    exact (congrArg owned (update_of_ne ht'.1 code s.code)).trans (hout t' ht'.2)
  · have hT : ∑ t ∈ Insert.insert t T, owned (s.code t) = ∑ t ∈ T, owned (s.code t) :=
      Finset.sum_insert_of_eq_zero_if_notMem (hout t)
    have hold := Finset.sum_erase_add (Insert.insert t T) (fun t => owned (s.code t))
      (Finset.mem_insert_self t T)
    have hnew := Finset.sum_erase_add (Insert.insert t T)
      (fun t' => owned (update s.code t code t')) (Finset.mem_insert_self t T)
    rw [Finset.sum_congr rfl fun t' ht' => by rw [update_of_ne (Finset.ne_of_mem_erase ht')],
      update_self] at hnew
    dsimp only at hnew hold ⊢
    omega

theorem Booked.counted {s : SlotRun} (h : Booked s) (hpos : 0 < owned (s.code t)) :
    0 < s.shared.topicCount := by
  obtain ⟨T, hout, hcount⟩ := h.slots
  have hmem : t ∈ T := by_contra fun ht => hpos.ne' (hout t ht)
  have hle := Finset.single_le_sum (f := fun t => owned (s.code t)) (fun _ _ => Nat.zero_le _) hmem
  rw [hcount]
  exact Nat.add_pos_right _ (hpos.trans_le hle)

theorem Booked.step {s s' : SlotRun} {a : ThreadAction SlotCall Bool} (h : Booked s)
    (hstep : s.step cap a = some s') : Booked s' := by
  obtain ⟨t, c, rfl, hcode, rfl⟩ | ⟨t, ok, i, rest, o, rfl, hcode, ho, rfl⟩ :=
    Threads.step_cases _ _ hstep
  · refine h.move ?_ ?_
    · cases c <;> rfl
    · rw [hcode, owned_body, owned_nil]
  · have hrest := h.tail t
    rw [hcode] at hrest
    have hown : i.owns = true → 0 < s.shared.topicCount := fun hi => h.counted <| by
      rw [hcode, owned_cons, hi]
      exact Nat.add_pos_left Nat.one_pos _
    obtain ⟨hbal, htail⟩ := balance hown hrest ho
    refine h.move htail ?_
    rwa [hcode, owned_cons, show owned rest = 0 from hrest]

/-- **The topic cap is exact.**  In every interleaving of creates, updates, auto-creates and deletes,
whichever of their logs fail, the registry is within the counter and the counter within the cap; and
with no call in progress they agree. -/
theorem topic_cap_exact (hcap : 0 < cap) {as : List (ThreadAction SlotCall Bool)} {s : SlotRun}
    (hrun : exec (SlotRun.step cap) .empty as = some s) :
    s.shared.topics.card ≤ s.shared.topicCount ∧ s.shared.topicCount ≤ cap ∧
      ((∀ t, s.code t = []) → s.shared.topicCount = s.shared.topics.card) := by
  have hbooked : Booked s ∧ s.shared.topicCount ≤ cap := by
    refine exec_invariant (I := fun s => Booked s ∧ s.shared.topicCount ≤ cap) _
      (fun s a s' h hs => ⟨h.1.step hs, ?_⟩) ⟨⟨fun _ => rfl, ∅, fun _ _ => rfl, rfl⟩, Nat.zero_le _⟩
      hrun
    obtain ⟨t, c, rfl, -, rfl⟩ | ⟨t, ok, i, rest, o, rfl, -, ho, rfl⟩ := Threads.step_cases _ _ hs
    · exact h.2
    · exact capped hcap h.2 ho
  obtain ⟨T, hout, hcount⟩ := hbooked.1.slots
  refine ⟨hcount ▸ Nat.le_add_right _ _, hbooked.2, fun hrest => ?_⟩
  rw [hcount, Finset.sum_eq_zero fun t _ => by rw [hrest t, owned_nil], Nat.add_zero]

/-- Two creates race for the one slot, and the loser is refused. -/
theorem topic_cap_exact_race :
    let as := [.start 0 (.putTopic "a"), .start 1 (.write "b")] ++ replicate 2 (.run 1 true) ++
      replicate 8 (.run 0 true) ++ replicate 5 (.run 1 true)
    ((exec (SlotRun.step 1) .empty as).map fun s => s.shared.topicCount) = some 1 ∧
      ∀ s ∈ exec (SlotRun.step 1) .empty as,
        s.shared.topics.card ≤ s.shared.topicCount ∧ s.shared.topicCount ≤ 1 ∧
          ((∀ t, s.code t = []) → s.shared.topicCount = s.shared.topics.card) :=
  ⟨rfl, fun _ h => topic_cap_exact Nat.one_pos h⟩

end TopicCap

end Topics
