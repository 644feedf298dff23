import Topics.Forwarding
import Topics.Lib.Threads

/-!
# Wakeups of the router worker

Writers publish and then mark their topic dirty (`sched.rs`); the worker drains the ready set and
advances the routers of every drained topic; readers advance the routers that feed the topic they
read.  All of them interleave.  Of a topic only the head counts here, and of a pass how many records
it consumes and how many of them it copies.
-/

namespace Topics

open Lib Function List Option

inductive Band where
  | b4 | b3 | b2 | b1 | b0
  deriving DecidableEq, Repr

structure RouterSet where
  names : List String
  source : String → String
  dest : String → String

structure WakeState where
  head : String → Nat
  /-- `sched_dirty`. -/
  dirty : String → Bool
  ready : Band → List String
  cursor : String → Nat
  /-- `router_advance_locks`. -/
  lock : String → Option Nat

/-- The atomic accesses of `write` from its publish on, `mark_dirty_fast`, `drain_router_sources`,
`catch_up_dest` and `advance_router`.  A pass that belongs to a catch-up has the number of further
passes its loop may make in `again`. -/
inductive WakeInstr where
  | publish (topic : String) (count : Nat)
  | load (topic : String)
  | exchange (topic : String)
  | push (topic : String)
  | drainOrder
  | clear (topic : String)
  | visit (topic : String)
  | feed (dest : String)
  | lock (router : String) (again : Option Nat)
  | readCursor (router : String) (again : Option Nat)
  | readHead (router : String) (again : Option Nat) (cursor : Nat)
  | append (router : String) (again : Option Nat) (cursor srcHead : Nat)
  | commit (router : String) (cursor : Nat)
  | unlock (router : String) (again : Option Nat) (consumed : Nat)
  deriving DecidableEq, Repr

/-- What is decided elsewhere: the band of a topic's priority, and how many of the records of a pass
the filter and the hop cap let through. -/
structure WakeInput where
  band : Band := .b0
  copies : Nat := 0
  deriving DecidableEq, Repr

inductive WakeCall where
  | write (topic : String) (count : Nat)
  | drainRouterSources
  | catchUpDest (dest : String)
  deriving DecidableEq, Repr

def WakeCall.body : WakeCall → List WakeInstr
  | .write topic count => [.publish topic count]
  | .drainRouterSources => [.drainOrder]
  | .catchUpDest dest => [.feed dest]

namespace WakeState

/-- `drain_order`: the bands from B4 down. -/
def order (s : WakeState) : List String :=
  [Band.b4, .b3, .b2, .b1, .b0].flatMap s.ready

def grow (s : WakeState) (x : String) (n : Nat) : WakeState :=
  { s with head := update s.head x (s.head x + n) }

def setDirty (s : WakeState) (x : String) (v : Bool) : WakeState :=
  { s with dirty := update s.dirty x v }

def setReady (s : WakeState) (ready : Band → List String) : WakeState := { s with ready := ready }

/-- `note_forwarded`. -/
def setCursor (s : WakeState) (r : String) (cursor : Nat) : WakeState :=
  { s with cursor := update s.cursor r cursor }

def setLock (s : WakeState) (r : String) (holder : Option Nat) : WakeState :=
  { s with lock := update s.lock r holder }

variable (N : RouterSet)

/-- One access of thread `t`, and what it goes on with.  There are no failures, trims or
back-pressure: a pass consumes its whole batch. -/
def run (s : WakeState) (t : Nat) (x : WakeInput) :
    WakeInstr → Option (WakeState × List WakeInstr)
  | .publish y n => some (s.grow y n, [.load y])
  | .load y => some (s, if s.dirty y then [] else [.exchange y])
  | .exchange y =>
    if s.dirty y then some (s, [])
    else some (s.setDirty y true, [.push y])
  | .push y =>
    if y ∈ s.ready x.band then some (s, [])
    else some (s.setReady (update s.ready x.band (s.ready x.band ++ [y])), [])
  | .drainOrder =>
    some (s.setReady fun _ => [], s.order.map .clear ++ s.order.map .visit)
  | .clear y => some (s.setDirty y false, [])
  | .visit y =>
    some (s, (N.names.filter fun r => N.source r = y).map fun r => .lock r none)
  | .feed y =>
    some (s, (N.names.filter fun r => N.dest r = y).map fun r => .lock r (some 1000000))
  | .lock r again =>
    if s.lock r = none then
      some (s.setLock r (some t), [.readCursor r again])
    else none
  | .readCursor r again => some (s, [.readHead r again (s.cursor r)])
  | .readHead r again cursor =>
    if s.head (N.source r) ≤ cursor then some (s, [.unlock r again 0])
    else some (s, [.append r again cursor (s.head (N.source r))])
  | .append r again cursor srcHead =>
    let batchEnd := min srcHead (cursor + routerBatch)
    let rest := .commit r batchEnd :: (if batchEnd < srcHead then [.load (N.source r)] else []) ++
      [.unlock r again (batchEnd - cursor)]
    if x.copies = 0 then some (s, rest)
    else if x.copies ≤ batchEnd - cursor then
      some (s.grow (N.dest r) x.copies, .load (N.dest r) :: rest)
    else none
  | .commit r cursor => some (s.setCursor r cursor, [])
  | .unlock r again consumed =>
    some (s.setLock r none,
      if consumed = 0 then [] else
        match again with
        | some (n + 1) => [.lock r (some n)]
        | _ => [])

def sem (s : WakeState) (t : Nat) (x : WakeInput) (i : WakeInstr) :
    Option (Outcome WakeState WakeInstr) :=
  (s.run N t x i).map fun p => .next p.1 p.2

def step : Threads WakeState WakeInstr → ThreadAction WakeCall WakeInput →
    Option (Threads WakeState WakeInstr) :=
  Threads.step WakeCall.body (sem N)

/-- A state at rest: a router behind its source has a dirty source, and the dirty topics are in the
ready set. -/
structure Settled (s : WakeState) : Prop where
  capped : ∀ r ∈ N.names, s.cursor r ≤ s.head (N.source r)
  behind : ∀ r ∈ N.names, s.cursor r < s.head (N.source r) → s.dirty (N.source r) = true
  marked : ∀ x, s.dirty x = true → ∃ b, x ∈ s.ready b

@[simp] theorem setCursor_self (s : WakeState) (r : String) (cursor : Nat) :
    (s.setCursor r cursor).cursor r = cursor := update_self ..

theorem setCursor_of_ne (s : WakeState) {r r' : String} (h : r' ≠ r) (cursor : Nat) :
    (s.setCursor r cursor).cursor r' = s.cursor r' := update_of_ne h ..

theorem mem_order {s : WakeState} {x : String} : x ∈ s.order ↔ ∃ b, x ∈ s.ready b := by
  simp only [order, mem_flatMap]
  constructor
  · rintro ⟨b, -, hx⟩
    exact ⟨b, hx⟩
  · rintro ⟨b, hx⟩
    refine ⟨b, ?_, hx⟩
    cases b <;> simp

end WakeState

/-! ## The code of a call -/

namespace WakeInstr

/-- The router whose lock the call holds at this instruction. -/
def holds : WakeInstr → Option String
  | .readCursor r _ | .readHead r .. | .append r .. | .commit r _ | .unlock r .. => some r
  | _ => none

/-- What may follow an instruction in a call: a pass ends before the next one starts, and a topic
that is cleared is visited afterwards. -/
def Before : WakeInstr → List WakeInstr → Prop
  | .load _, _ | .exchange _, _ | .push _, _ => True
  | .clear x, rest => .visit x ∈ rest ∧ ∀ i ∈ rest, i.holds = none
  | .commit r _, rest => ∀ i ∈ rest, i.holds = none ∨ ∃ again n, i = .unlock r again n
  | _, rest => ∀ i ∈ rest, i.holds = none

/-- The instruction will take care of what the router is behind. -/
def Serves (N : RouterSet) (s : WakeState) (r : String) : WakeInstr → Prop
  | .load x | .exchange x | .visit x => x = N.source r
  | .lock r' _ | .readCursor r' _ | .readHead r' .. => r' = r
  | .append r' _ _ srcHead => r' = r ∧ srcHead = s.head (N.source r)
  | .commit r' cursor => r' = r ∧ cursor = s.head (N.source r)
  | _ => False

/-- The instruction will put the topic into the ready set, or clear its flag. -/
def Lists (x : String) : WakeInstr → Prop
  | .push y | .clear y => y = x
  | _ => False

theorem Serves.congr {N : RouterSet} {s s' : WakeState} {r : String} {i : WakeInstr}
    (h : i.Serves N s r) (hhead : s'.head (N.source r) = s.head (N.source r)) : i.Serves N s' r := by
  cases i with
  | append | commit => exact ⟨h.1, h.2.trans hhead.symm⟩
  | _ => exact h

end WakeInstr

namespace WakeState

open WakeInstr

variable {N : RouterSet} {s s' : WakeState} {t t' : Nat} {i : WakeInstr} {code rest m : List WakeInstr}

def Tidy : List WakeInstr → Prop
  | [] => True
  | i :: rest => i.Before rest ∧ Tidy rest

/-- What a pass knows: the cursor cannot move under the lock, and the heads only grow. -/
def Bounded (N : RouterSet) (s : WakeState) : WakeInstr → Prop
  | .readHead r _ cursor => s.cursor r = cursor
  | .append r _ cursor srcHead =>
    s.cursor r = cursor ∧ cursor < srcHead ∧ srcHead ≤ s.head (N.source r)
  | .commit r cursor => s.cursor r < cursor ∧ cursor ≤ s.head (N.source r)
  | _ => True

structure CodeOk (N : RouterSet) (s : WakeState) (t : Nat) (code : List WakeInstr) : Prop where
  tidy : Tidy code
  held : ∀ i ∈ code, ∀ r, i.holds = some r → s.lock r = some t
  bounded : ∀ i ∈ code, s.Bounded N i

/-- A step that leaves what thread `t` relies on: its locks, and the cursors under them. -/
structure Spares (t : Nat) (s s' : WakeState) : Prop where
  head : ∀ x, s.head x ≤ s'.head x
  lock : ∀ r, s.lock r = some t → s'.lock r = some t
  cursor : ∀ r, s.lock r = some t → s'.cursor r = s.cursor r

theorem Spares.of_eq (t : Nat) (hhead : s'.head = s.head) (hlock : s'.lock = s.lock)
    (hcursor : s'.cursor = s.cursor) : Spares t s s' :=
  ⟨fun x => (congrFun hhead x).ge, fun _ h => hlock ▸ h, fun r _ => congrFun hcursor r⟩

theorem Bounded.spares (h : s.Bounded N i) (hheld : ∀ r, i.holds = some r → s.lock r = some t)
    (hs : Spares t s s') : s'.Bounded N i := by
  cases i with
  | readHead r again cursor => exact (hs.cursor r (hheld r rfl)).trans h
  | append r again cursor srcHead =>
    exact ⟨(hs.cursor r (hheld r rfl)).trans h.1, h.2.1, h.2.2.trans (hs.head _)⟩
  | commit r cursor =>
    refine ⟨?_, h.2.trans (hs.head _)⟩
    rw [hs.cursor r (hheld r rfl)]
    exact h.1
  | _ => trivial

theorem CodeOk.spares (h : CodeOk N s t code) (hs : Spares t s s') : CodeOk N s' t code where
  tidy := h.tidy
  held i hi r hr := hs.lock r (h.held i hi r hr)
  bounded i hi := (h.bounded i hi).spares (h.held i hi) hs

theorem Bounded.of_free (h : i.holds = none) : s.Bounded N i := by
  cases i with
  | readHead | append | commit => cases h
  | _ => trivial

theorem CodeOk.free (h : CodeOk N s t code) (hfree : ∀ i ∈ code, i.holds = none) :
    CodeOk N s' t code where
  tidy := h.tidy
  held i hi r hr := by
    rw [hfree i hi] at hr
    cases hr
  bounded i hi := .of_free (hfree i hi)

theorem CodeOk.tail (h : CodeOk N s t (i :: rest)) : CodeOk N s t rest :=
  ⟨h.tidy.2, fun j hj => h.held j (mem_cons_of_mem i hj),
    fun j hj => h.bounded j (mem_cons_of_mem i hj)⟩

theorem codeOk_nil : CodeOk N s t [] := ⟨trivial, by simp, by simp⟩

theorem CodeOk.cons (h : CodeOk N s t rest) (hbefore : i.Before rest)
    (hheld : ∀ r, i.holds = some r → s.lock r = some t) (hbounded : s.Bounded N i) :
    CodeOk N s t (i :: rest) where
  tidy := ⟨hbefore, h.tidy⟩
  held j hj := by
    rcases mem_cons.mp hj with rfl | hj
    · exact hheld
    · exact h.held j hj
  bounded j hj := by
    rcases mem_cons.mp hj with rfl | hj
    · exact hbounded
    · exact h.bounded j hj

theorem CodeOk.append (h : CodeOk N s t rest) (hrest : ∀ i ∈ rest, i.holds = none) {α : Type}
    {f : α → WakeInstr} {l : List α} (hfree : ∀ a, (f a).holds = none ∧ s.Bounded N (f a))
    (hbefore : ∀ a ∈ l, ∀ later, (∀ i ∈ later ++ rest, i.holds = none) →
      (f a).Before (later ++ rest)) :
    CodeOk N s t (l.map f ++ rest) ∧ ∀ i ∈ l.map f ++ rest, i.holds = none := by
  induction l with
  | nil => exact ⟨h, hrest⟩
  | cons a l ih =>
    obtain ⟨hok, hnone⟩ := ih fun b hb => hbefore b (mem_cons_of_mem a hb)
    refine ⟨hok.cons (hbefore a mem_cons_self _ hnone) (fun r hr => ?_)
      (hfree a).2, fun i hi => ?_⟩
    · rw [(hfree a).1] at hr
      cases hr
    · rcases mem_cons.mp hi with rfl | hi
      · exact (hfree a).1
      · exact hnone i hi

/-! ## The invariant -/

structure Woken (N : RouterSet) (u : Threads WakeState WakeInstr) : Prop where
  capped : ∀ r ∈ N.names, u.shared.cursor r ≤ u.shared.head (N.source r)
  behind : ∀ r ∈ N.names, u.shared.cursor r < u.shared.head (N.source r) →
    u.shared.dirty (N.source r) = true ∨ ∃ t, ∃ i ∈ u.code t, i.Serves N u.shared r
  marked : ∀ x, u.shared.dirty x = true →
    (∃ b, x ∈ u.shared.ready b) ∨ ∃ t, ∃ i ∈ u.code t, i.Lists x
  code : ∀ t, CodeOk N u.shared t (u.code t)

variable {u u' : Threads WakeState WakeInstr}

theorem exists_of_step {p : WakeInstr → Prop} (hcode : u.code t = i :: rest) (hi : ¬p i)
    (h : ∃ t, ∃ j ∈ u.code t, p j) :
    ∃ t', ∃ j ∈ update u.code t (m ++ rest) t', p j := by
  obtain ⟨t', j, hj, hp⟩ := h
  refine ⟨t', j, ?_, hp⟩
  by_cases ht : t' = t
  · subst ht
    rw [hcode] at hj
    rw [update_self]
    rcases mem_cons.mp hj with rfl | hj
    · exact absurd hp hi
    · exact mem_append_right m hj
  · rw [update_of_ne ht]
    exact hj

/-- **What a step has to show.** -/
theorem Woken.next (h : Woken N u) (hcode : u.code t = i :: rest)
    (hspares : ∀ t', t' ≠ t → Spares t' u.shared s') (hown : CodeOk N s' t (m ++ rest))
    (hcapped : ∀ r ∈ N.names, s'.cursor r ≤ s'.head (N.source r))
    (hbehind : ∀ r ∈ N.names, s'.cursor r < s'.head (N.source r) →
      s'.dirty (N.source r) = true ∨ (∃ j ∈ m ++ rest, j.Serves N s' r) ∨
      u.shared.cursor r < u.shared.head (N.source r) ∧ s'.head (N.source r) = u.shared.head (N.source r) ∧
        s'.dirty (N.source r) = u.shared.dirty (N.source r) ∧ ¬i.Serves N u.shared r)
    (hmarked : ∀ x, s'.dirty x = true →
      (∃ b, x ∈ s'.ready b) ∨ (∃ j ∈ m ++ rest, j.Lists x) ∨
      u.shared.dirty x = true ∧ ¬i.Lists x ∧ ∀ b, x ∈ u.shared.ready b → ∃ b', x ∈ s'.ready b') :
    Woken N ⟨s', update u.code t (m ++ rest)⟩ where
  capped := hcapped
  behind r hr hlt := by
    rcases hbehind r hr hlt with hd | ⟨j, hj, hserves⟩ | ⟨hlt', hhead, hdirty, hi⟩
    · exact .inl hd
    · exact .inr ⟨t, j, by simpa using hj, hserves⟩
    · rcases h.behind r hr hlt' with hd | hex
      · exact .inl (hdirty.trans hd)
      · obtain ⟨t', j, hj, hserves⟩ := exists_of_step (m := m) hcode hi hex
        exact .inr ⟨t', j, hj, hserves.congr hhead⟩
  marked x hx := by
    rcases hmarked x hx with hb | ⟨j, hj, hlists⟩ | ⟨hd, hi, hready⟩
    · exact .inl hb
    · exact .inr ⟨t, j, by simpa using hj, hlists⟩
    · rcases h.marked x hd with ⟨b, hb⟩ | hex
      · exact .inl (hready b hb)
      · exact .inr (exists_of_step hcode hi hex)
  code := (forall_update_iff u.code (CodeOk N s')).mpr
    ⟨hown, fun t' ht => (h.code t').spares (hspares t' ht)⟩

theorem Woken.quiet (h : Woken N u) (hcode : u.code t = i :: rest)
    (hhead : s'.head = u.shared.head) (hdirty : s'.dirty = u.shared.dirty)
    (hready : s'.ready = u.shared.ready) (hcursor : s'.cursor = u.shared.cursor)
    (hlock : ∀ r t', t' ≠ t → u.shared.lock r = some t' → s'.lock r = some t')
    (hown : CodeOk N s' t (m ++ rest)) (hi : ∀ x, ¬i.Lists x)
    (hserves : ∀ r ∈ N.names, u.shared.cursor r < u.shared.head (N.source r) → i.Serves N u.shared r →
      u.shared.dirty (N.source r) = true ∨ ∃ j ∈ m, j.Serves N u.shared r) :
    Woken N ⟨s', update u.code t (m ++ rest)⟩ := by
  obtain ⟨head, dirty, ready, cursor, lock⟩ := s'
  cases hhead
  cases hdirty
  cases hready
  cases hcursor
  refine h.next hcode (fun t' ht => ⟨fun _ => le_rfl, fun r => hlock r t' ht, fun _ _ => rfl⟩) hown
    h.capped (fun r hr hlt => ?_) fun x hx => .inr (.inr ⟨hx, hi x, fun b hb => ⟨b, hb⟩⟩)
  by_cases hs : i.Serves N u.shared r
  · rcases hserves r hr hlt hs with hd | ⟨j, hj, hjs⟩
    · exact .inl hd
    · exact .inr (.inl ⟨j, mem_append_left rest hj, hjs.congr rfl⟩)
  · exact .inr (.inr ⟨hlt, rfl, rfl, hs⟩)

theorem setLock_other {r : String} {v : Option Nat} (hfree : ∀ t', t' ≠ t → s.lock r ≠ some t')
    (r' : String) (t' : Nat) (ht : t' ≠ t) (h : s.lock r' = some t') :
    (s.setLock r v).lock r' = some t' := by
  refine (update_of_ne ?_ _ _).trans h
  rintro rfl
  exact hfree t' ht h

section

variable (h : Woken N u)

include h

theorem Woken.grow (hcode : u.code t = i :: rest) {x : String} {n : Nat}
    (hown : CodeOk N u.shared t (.load x :: m ++ rest)) (hi : ∀ y, ¬i.Lists y)
    (hserves : ∀ r, N.source r ≠ x → i.Serves N u.shared r → ∃ j ∈ m, j.Serves N u.shared r) :
    Woken N ⟨u.shared.grow x n, update u.code t (.load x :: m ++ rest)⟩ := by
  have hle : ∀ y, u.shared.head y ≤ (u.shared.grow x n).head y := by
    intro y
    unfold WakeState.grow
    by_cases hy : y = x
    · subst hy
      simp
    · simp [hy]
  refine h.next hcode (fun _ _ => ⟨hle, fun _ h => h, fun _ _ => rfl⟩)
    (hown.spares ⟨hle, fun _ h => h, fun _ _ => rfl⟩)
    (fun r hr => (h.capped r hr).trans (hle _)) (fun r hr hlt => ?_)
    fun y hy => .inr (.inr ⟨hy, hi y, fun b hb => ⟨b, hb⟩⟩)
  by_cases hx : N.source r = x
  · exact .inr (.inl ⟨.load x, mem_cons_self, hx.symm⟩)
  · -- the other heads are the same
    have hhead : (u.shared.grow x n).head (N.source r) = u.shared.head (N.source r) :=
      update_of_ne hx _ _
    by_cases hs : i.Serves N u.shared r
    · obtain ⟨j, hj, hjs⟩ := hserves r hx hs
      exact .inr (.inl ⟨j, mem_cons_of_mem _ (mem_append_left rest hj), hjs.congr hhead⟩)
    · exact .inr (.inr ⟨hhead ▸ hlt, hhead, rfl, hs⟩)

theorem Woken.publish {x : String} {n : Nat} (hcode : u.code t = .publish x n :: rest) :
    Woken N ⟨u.shared.grow x n, update u.code t (.load x :: rest)⟩ := by
  have hown := h.code t
  rw [hcode] at hown
  exact h.grow (m := []) hcode (hown.tail.cons (i := .load x) trivial nofun trivial)
    (fun y hy => hy) fun r _ hs => hs.elim

theorem Woken.exchange {x : String} (hcode : u.code t = .exchange x :: rest)
    (hx : u.shared.dirty x = false) :
    Woken N ⟨u.shared.setDirty x true, update u.code t (.push x :: rest)⟩ := by
  have hown := h.code t
  rw [hcode] at hown
  refine h.next (m := [.push x]) hcode (fun _ _ => .of_eq _ rfl rfl rfl)
    ?_ h.capped (fun r hr hlt => ?_) fun y hy => ?_
  · have hspared : CodeOk N (u.shared.setDirty x true) t rest :=
      hown.tail.spares (.of_eq _ rfl rfl rfl)
    exact hspared.cons trivial nofun trivial
  · by_cases hr' : N.source r = x
    · subst hr'
      exact .inl (update_self ..)
    · exact .inr (.inr ⟨hlt, rfl, update_of_ne hr' _ _, fun hs => hr' hs.symm⟩)
  · by_cases hy' : y = x
    · subst hy'
      exact .inr (.inl ⟨.push y, mem_cons_self, rfl⟩)
    · exact .inr (.inr ⟨(update_of_ne hy' _ _).symm.trans hy, fun hl => hl, fun b hb => ⟨b, hb⟩⟩)

theorem Woken.push {x : String} {b : Band} (hcode : u.code t = .push x :: rest)
    {l : Band → List String} (hmono : ∀ b, u.shared.ready b ⊆ l b) (hx : x ∈ l b) :
    Woken N ⟨u.shared.setReady l, update u.code t rest⟩ := by
  have hown := h.code t
  rw [hcode] at hown
  refine h.next (m := []) hcode (fun _ _ => .of_eq _ rfl rfl rfl)
    (hown.tail.spares (.of_eq _ rfl rfl rfl)) h.capped
    (fun r hr hlt => .inr (.inr ⟨hlt, rfl, rfl, fun hs => hs⟩)) fun y hy => ?_
  by_cases hy' : y = x
  · subst hy'
    exact .inl ⟨b, hx⟩
  · exact .inr (.inr ⟨hy, fun hl => hy' hl.symm, fun b hb => ⟨b, hmono b hb⟩⟩)

theorem Woken.drainOrder (hcode : u.code t = .drainOrder :: rest) :
    Woken N ⟨u.shared.setReady fun _ => [],
      update u.code t
        (u.shared.order.map .clear ++ u.shared.order.map .visit ++ rest)⟩ := by
  have hown := h.code t
  rw [hcode] at hown
  refine h.next hcode (fun _ _ => .of_eq _ rfl rfl rfl) ?_ h.capped
    (fun r hr hlt => .inr (.inr ⟨hlt, rfl, rfl, fun hs => hs⟩)) fun x hx => ?_
  · have hok : CodeOk N (u.shared.setReady fun _ => []) t rest :=
      hown.tail.spares (.of_eq _ rfl rfl rfl)
    have hvisits := hok.append (f := .visit) (l := u.shared.order) hown.tidy.1
      (fun _ => ⟨rfl, trivial⟩) fun _ _ _ hnone => hnone
    rw [append_assoc]
    refine (hvisits.1.append (f := .clear) hvisits.2 (fun _ => ⟨rfl, trivial⟩) fun x hx later hnone => ?_).1
    exact ⟨mem_append_right _ (mem_append_left _ (mem_map_of_mem hx)), hnone⟩
  · by_cases hr : ∃ b, x ∈ u.shared.ready b
    · refine .inr (.inl ⟨.clear x, ?_, rfl⟩)
      rw [append_assoc]
      exact mem_append_left _ (mem_map_of_mem (mem_order.mpr hr))
    · exact .inr (.inr ⟨hx, fun hl => hl, fun b hb => absurd ⟨b, hb⟩ hr⟩)

theorem Woken.clear {x : String} (hcode : u.code t = .clear x :: rest) :
    Woken N ⟨u.shared.setDirty x false, update u.code t rest⟩ := by
  have hown := h.code t
  rw [hcode] at hown
  refine h.next (m := []) hcode (fun _ _ => .of_eq _ rfl rfl rfl)
    (hown.tail.spares (.of_eq _ rfl rfl rfl)) h.capped
    (fun r hr hlt => ?_) fun y hy => ?_
  · by_cases hr' : N.source r = x
    · -- the topic is visited after it is cleared
      exact .inr (.inl ⟨.visit x, hown.tidy.1.1, hr'.symm⟩)
    · exact .inr (.inr ⟨hlt, rfl, update_of_ne hr' _ _, fun hs => hs⟩)
  · by_cases hy' : y = x
    · subst hy'
      cases (update_self ..).symm.trans hy
    · exact .inr (.inr ⟨(update_of_ne hy' _ _).symm.trans hy, fun hl => hy' hl.symm, fun b hb => ⟨b, hb⟩⟩)

theorem Woken.commit {r : String} {cursor : Nat} (hcode : u.code t = .commit r cursor :: rest) :
    Woken N ⟨u.shared.setCursor r cursor, update u.code t rest⟩ := by
  have hown := h.code t
  rw [hcode] at hown
  have hlock := hown.held _ mem_cons_self r rfl
  obtain ⟨hlt, hle⟩ := hown.bounded _ mem_cons_self
  refine h.next (m := []) hcode (fun t' ht => ⟨fun _ => le_rfl, fun _ h => h, fun r' hr' => ?_⟩)
    ⟨hown.tidy.2, hown.tail.held, fun j hj => ?_⟩ (fun r' hr' => ?_) (fun r' hr' hlt' => ?_)
    fun x hx => .inr (.inr ⟨hx, fun hl => hl, fun b hb => ⟨b, hb⟩⟩)
  · refine update_of_ne ?_ _ _
    rintro rfl
    exact ht (some.inj (hr'.symm.trans hlock))
  · -- only the release of the lock is left of the pass
    rcases hown.tidy.1 j hj with hnone | ⟨again, n, rfl⟩
    · exact .of_free hnone
    · trivial
  · by_cases hrr : r' = r
    · subst hrr
      rw [setCursor_self]
      exact hle
    · rw [setCursor_of_ne _ hrr]
      exact h.capped r' hr'
  · by_cases hrr : r' = r
    · subst hrr
      rw [setCursor_self] at hlt'
      refine .inr (.inr ⟨hlt.trans hlt', rfl, rfl, fun hs => ?_⟩)
      exact absurd hs.2 hlt'.ne
    · rw [setCursor_of_ne _ hrr] at hlt'
      exact .inr (.inr ⟨hlt', rfl, rfl, fun hs => hrr hs.1.symm⟩)

theorem Woken.passes {i : WakeInstr} (hcode : u.code t = i :: rest)
    (hrest : ∀ j ∈ rest, j.holds = none) (hi : ∀ x, ¬i.Lists x) (again : Option Nat)
    {routers : List String} (hserves : ∀ r ∈ N.names, i.Serves N u.shared r → r ∈ routers) :
    Woken N ⟨u.shared, update u.code t (routers.map (.lock · again) ++ rest)⟩ := by
  have hown := h.code t
  rw [hcode] at hown
  refine h.quiet hcode rfl rfl rfl rfl (fun _ _ _ h => h) ?_ hi fun r hr _ hs => .inr ?_
  · exact (hown.tail.append (f := (.lock · again)) hrest (fun _ => ⟨rfl, trivial⟩) fun _ _ _ hnone => hnone).1
  · exact ⟨_, mem_map_of_mem (hserves r hr hs), rfl⟩

theorem Woken.append {r : String} {again : Option Nat} {cursor srcHead : Nat}
    (hcode : u.code t = .append r again cursor srcHead :: rest) {p : WakeState × List WakeInstr}
    {x : WakeInput} (hrun : run N u.shared t x (.append r again cursor srcHead) = some p) :
    Woken N ⟨p.1, update u.code t (p.2 ++ rest)⟩ := by
  have hown := h.code t
  rw [hcode] at hown
  have hlock := hown.held _ mem_cons_self r rfl
  obtain ⟨hcursor, hlt, hle⟩ := hown.bounded _ mem_cons_self
  have hnone : ∀ j ∈ rest, j.holds = none := hown.tidy.1
  simp only [run] at hrun
  generalize hend : min srcHead (cursor + routerBatch) = batchEnd at hrun
  have hbatch : cursor < batchEnd ∧ batchEnd ≤ srcHead := by
    unfold routerBatch at hend
    omega
  -- what is left of the pass, and how it serves the router
  generalize hremark : (if batchEnd < srcHead then [WakeInstr.load (N.source r)] else []) = remark at hrun
  have hfree : ∀ j ∈ remark, j = .load (N.source r) := by
    rw [← hremark]
    intro j hj
    split at hj
    · exact mem_singleton.mp hj
    · cases hj
  have hok : CodeOk N u.shared t (.commit r batchEnd :: remark ++ [.unlock r again (batchEnd - cursor)] ++ rest) := by
    have hunlock := hown.tail.cons (i := .unlock r again (batchEnd - cursor)) hnone
      (fun r' hr' => some.inj hr' ▸ hlock) trivial
    have hmarks : CodeOk N u.shared t (remark ++ [.unlock r again (batchEnd - cursor)] ++ rest) := by
      rw [← hremark]
      split
      · exact hunlock.cons (i := .load _) trivial nofun trivial
      · exact hunlock
    refine hmarks.cons (i := .commit r batchEnd) (fun j hj => ?_)
      (fun r' hr' => some.inj hr' ▸ hlock) ⟨hcursor ▸ hbatch.1, hbatch.2.trans hle⟩
    rcases mem_append.mp hj with hj | hj
    · rcases mem_append.mp hj with hj | hj
      · rw [hfree j hj]
        exact .inl rfl
      · exact .inr ⟨_, _, mem_singleton.mp hj⟩
    · exact .inl (hnone j hj)
  have hserves : (WakeInstr.append r again cursor srcHead).Serves N u.shared r →
      ∃ j ∈ .commit r batchEnd :: remark ++ [.unlock r again (batchEnd - cursor)], j.Serves N u.shared r := by
    rintro ⟨-, hhead⟩
    by_cases hmore : batchEnd < srcHead
    · refine ⟨.load (N.source r), ?_, rfl⟩
      rw [← hremark, if_pos hmore]
      simp
    · exact ⟨.commit r batchEnd, mem_cons_self, rfl, by omega⟩
  split at hrun
  · cases hrun
    exact h.quiet hcode rfl rfl rfl rfl (fun _ _ _ h => h) hok (fun x hx => hx) fun r' _ _ hs =>
      .inr (hs.1 ▸ hserves (hs.1 ▸ hs))
  split at hrun
  · cases hrun
    refine h.grow hcode (hok.cons (i := .load (N.dest r)) trivial nofun trivial)
      (fun y hy => hy) fun r' _ hs => hs.1 ▸ hserves (hs.1 ▸ hs)
  · cases hrun

/-- **One access keeps the invariant.** -/
theorem Woken.run {i : WakeInstr} {x : WakeInput} (hcode : u.code t = i :: rest)
    {p : WakeState × List WakeInstr} (hrun : WakeState.run N u.shared t x i = some p) :
    Woken N ⟨p.1, update u.code t (p.2 ++ rest)⟩ := by
  have hown := h.code t
  rw [hcode] at hown
  cases i with
  | publish y n =>
    cases hrun
    exact h.publish hcode
  | load y =>
    cases hrun
    refine h.quiet hcode rfl rfl rfl rfl (fun _ _ _ h => h) ?_ (fun x hx => hx) fun r _ _ hs => ?_
    · split
      · exact hown.tail
      · exact hown.tail.cons trivial nofun trivial
    · cases hd : u.shared.dirty y with
      | true => exact .inl (hs ▸ hd)
      | false => exact .inr ⟨.exchange y, by simp, hs⟩
  | exchange y =>
    simp only [WakeState.run] at hrun
    split at hrun
    · rename_i hd
      cases hrun
      exact h.quiet (m := []) hcode rfl rfl rfl rfl (fun _ _ _ h => h) hown.tail (fun x hx => hx)
        fun r _ _ hs => .inl (hs ▸ hd)
    · rename_i hd
      cases hrun
      exact h.exchange hcode (Bool.eq_false_iff.mpr hd)
  | push y =>
    simp only [WakeState.run] at hrun
    split at hrun
    · rename_i hy
      cases hrun
      exact h.push (l := u.shared.ready) hcode (fun b => List.Subset.refl _) hy
    · cases hrun
      refine h.push (b := x.band) hcode (fun b' => ?_) ?_
      · by_cases hb : b' = x.band
        · rw [hb]
          simp
        · simp [update_of_ne hb]
      · simp
  | drainOrder =>
    cases hrun
    exact h.drainOrder hcode
  | clear y =>
    cases hrun
    exact h.clear hcode
  | visit y =>
    cases hrun
    refine h.passes hcode hown.tidy.1 (fun x hx => hx) none fun r hr hs => ?_
    exact mem_filter.mpr ⟨hr, by simpa using hs.symm⟩
  | feed y =>
    cases hrun
    exact h.passes hcode hown.tidy.1 (fun x hx => hx) _ fun r _ hs => hs.elim
  | lock r again =>
    obtain ⟨hfree, ⟨⟩⟩ := ite_none_right_eq_some.mp hrun
    have hother := setLock_other (t := t) (v := some t) fun t' _ hsome => by
      rw [hfree] at hsome
      cases hsome
    refine h.quiet hcode rfl rfl rfl rfl hother ?_ (fun x hx => hx) fun r' _ _ hs =>
      .inr ⟨.readCursor r again, mem_cons_self, hs⟩
    refine (hown.tail.free hown.tidy.1).cons hown.tidy.1 (fun r' hr' => ?_) trivial
    cases hr'
    exact update_self ..
  | readCursor r again =>
    cases hrun
    refine h.quiet hcode rfl rfl rfl rfl (fun _ _ _ h => h) ?_ (fun x hx => hx) fun r' _ _ hs =>
      .inr ⟨.readHead r again _, mem_cons_self, hs⟩
    have hheld := hown.held _ mem_cons_self
    exact hown.tail.cons hown.tidy.1 hheld rfl
  | readHead r again cursor =>
    have hheld := hown.held _ mem_cons_self
    have hcursor : u.shared.cursor r = cursor := hown.bounded _ mem_cons_self
    simp only [WakeState.run] at hrun
    split at hrun
    · rename_i hle
      cases hrun
      refine h.quiet hcode rfl rfl rfl rfl (fun _ _ _ h => h)
        (hown.tail.cons (i := .unlock r again 0) hown.tidy.1 hheld trivial) (fun x hx => hx)
        fun r' _ hlt hs => ?_
      cases hs
      omega
    · rename_i hlt
      cases hrun
      refine h.quiet hcode rfl rfl rfl rfl (fun _ _ _ h => h) ?_ (fun x hx => hx) fun r' _ _ hs => ?_
      · exact hown.tail.cons hown.tidy.1 hheld ⟨hcursor, by omega, le_rfl⟩
      · cases hs
        exact .inr ⟨_, mem_cons_self, rfl, rfl⟩
  | append r again cursor srcHead =>
    exact h.append hcode hrun
  | commit r cursor =>
    cases hrun
    exact h.commit hcode
  | unlock r again consumed =>
    cases hrun
    have hlock := hown.held _ mem_cons_self r rfl
    have hother := setLock_other (s := u.shared) (r := r) (t := t) (v := none) fun t' ht hsome =>
      ht (some.inj (hsome.symm.trans hlock))
    refine h.quiet hcode rfl rfl rfl rfl hother ?_ (fun x hx => hx) fun r' _ _ hs => hs.elim
    have hrest : CodeOk N (u.shared.setLock r none) t rest := hown.tail.free hown.tidy.1
    split
    · exact hrest
    split
    · exact hrest.cons hown.tidy.1 nofun trivial
    · exact hrest

end

theorem Settled.woken {s : WakeState} (h : s.Settled N) : Woken N ⟨s, fun _ => []⟩ where
  capped := h.capped
  behind r hr hlt := .inl (h.behind r hr hlt)
  marked x hx := .inl (h.marked x hx)
  code _ := codeOk_nil

theorem Woken.start (h : Woken N u) {t : Nat} (hidle : u.code t = []) (c : WakeCall) :
    Woken N ⟨u.shared, update u.code t c.body⟩ := by
  have hmem : ∀ {p : WakeInstr → Prop}, (∃ t, ∃ i ∈ u.code t, p i) →
      ∃ t', ∃ i ∈ update u.code t c.body t', p i := by
    rintro p ⟨t', i, hi, hp⟩
    refine ⟨t', i, ?_, hp⟩
    rw [update_of_ne]
    · exact hi
    · rintro rfl
      rw [hidle] at hi
      cases hi
  refine ⟨h.capped, fun r hr hlt => (h.behind r hr hlt).imp id hmem,
    fun x hx => (h.marked x hx).imp id hmem,
    (forall_update_iff u.code (CodeOk N u.shared)).mpr ⟨?_, fun t' _ => h.code t'⟩⟩
  cases c with
  | write | drainRouterSources | catchUpDest =>
    exact codeOk_nil.cons nofun nofun trivial

theorem Woken.step (h : Woken N u) {a : ThreadAction WakeCall WakeInput}
    (hstep : WakeState.step N u a = some u') : Woken N u' := by
  obtain ⟨t, c, -, hidle, rfl⟩ | ⟨t, x, i, rest, o, -, hcode, hsem, rfl⟩ :=
    Threads.step_cases _ _ hstep
  · exact h.start hidle c
  · obtain ⟨p, hrun, rfl⟩ := map_eq_some_iff.mp hsem
    exact h.run hcode hrun

/-- **No lost wakeup.**  In every run of writes, drains and catch-ups from a state at rest: when no
call is in progress and the ready set is empty, every router has forwarded its source up to the
head. -/
theorem no_lost_wakeup {s : WakeState} (hs : s.Settled N)
    {as : List (ThreadAction WakeCall WakeInput)}
    (hrun : exec (step N) ⟨s, fun _ => []⟩ as = some u) (hidle : ∀ t, u.code t = [])
    (hready : ∀ b, u.shared.ready b = []) :
    ∀ r ∈ N.names, u.shared.cursor r = u.shared.head (N.source r) := by
  have h : Woken N u := exec_invariant _ (fun _ _ _ h hs => h.step hs) hs.woken hrun
  have hnone : ∀ {p : WakeInstr → Prop}, ¬∃ t, ∃ i ∈ u.code t, p i := by
    rintro p ⟨t, i, hi, -⟩
    rw [hidle t] at hi
    cases hi
  intro r hr
  refine le_antisymm (h.capped r hr) (not_lt.mp fun hlt => ?_)
  rcases h.behind r hr hlt with hdirty | hserves
  · rcases h.marked _ hdirty with ⟨b, hb⟩ | hlists
    · rw [hready b] at hb
      cases hb
    · exact hnone hlists
  · exact hnone hserves

/-! ## A chain of two routers -/

/-- `p` copies `a` to `b`, and `q` copies `b` to `c`. -/
def chain : RouterSet where
  names := ["p", "q"]
  source r := if r = "p" then "a" else "b"
  dest r := if r = "p" then "b" else "c"

def atRest : WakeState := ⟨fun _ => 0, fun _ => false, fun _ => [], fun _ => 0, fun _ => none⟩

/-- A second write comes between the drain of the ready set and the clearing of the flag, so it
marks nothing; the drain that is under way forwards its record as well. -/
def chainRun : List (ThreadAction WakeCall WakeInput) :=
  .start 0 (.write "a" 1) :: List.replicate 4 (.run 0 {}) ++
    [.start 1 .drainRouterSources, .run 1 {}, .start 0 (.write "a" 1), .run 0 {}, .run 0 {}] ++
    List.replicate 5 (.run 1 {}) ++ .run 1 { copies := 2 } :: List.replicate 5 (.run 1 {}) ++
    .start 1 .drainRouterSources :: List.replicate 6 (.run 1 {}) ++
    .run 1 { copies := 1 } :: List.replicate 5 (.run 1 {}) ++
    .start 1 .drainRouterSources :: List.replicate 3 (.run 1 {})

theorem no_lost_wakeup_chain : ∃ u : Threads WakeState WakeInstr,
    exec (step chain) ⟨atRest, fun _ => []⟩ chainRun = some u ∧
    (u.shared.head "a" = 2 ∧ u.shared.head "b" = 2 ∧ u.shared.head "c" = 1) ∧
    ∀ r ∈ chain.names, u.shared.cursor r = u.shared.head (chain.source r) := by
  obtain ⟨u, hrun, hheads, hidle, hready⟩ : ∃ u : Threads WakeState WakeInstr,
      exec (step chain) ⟨atRest, fun _ => []⟩ chainRun = some u ∧
      (u.shared.head "a" = 2 ∧ u.shared.head "b" = 2 ∧ u.shared.head "c" = 1) ∧
      (∀ t, u.code t = []) ∧ ∀ b, u.shared.ready b = [] := by
    refine ⟨_, rfl, by decide +kernel, fun t => ?_, fun b => ?_⟩
    · rcases t with _ | _ | t <;> rfl
    · cases b <;> rfl
  refine ⟨u, hrun, hheads, no_lost_wakeup ⟨?_, ?_, ?_⟩ hrun hidle hready⟩
  all_goals simp [atRest]

end WakeState

end Topics
