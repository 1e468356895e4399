import P2KVS.RocksDB.WriteThread

/-!
# `AwaitState` and `SetState`, access by access

`AwaitState`, `BlockingAwaitState` and `SetState`, one access to the memory of the writer at a time.
The waiting thread spins, and then blocks: it constructs the mutex, exchanges the state for
`STATE_LOCKED_WAITING`, and sleeps on the condition variable. The other thread exchanges the state,
or finds it locked and stores it under the mutex.

`fault` is set when an assertion fails, or when `SetState` touches a writer whose thread has left
`AwaitState`, since that thread may return and take its writer with it.
-/

namespace P2KVS.WriteThread.Wait

open Transition

/-- What the field `state` of a writer holds: a state, or `STATE_LOCKED_WAITING`. -/
inductive Word where
  | state (value : WriterState)
  | lockedWaiting
  deriving DecidableEq, Repr

/-- `(state & goal_mask) != 0`. No goal mask has `STATE_LOCKED_WAITING`. -/
def Word.meets (goal : WriterState → Bool) : Word → Bool
  | .state value => goal value
  | .lockedWaiting => false

/-- The thread that waits and the one that sets the state. -/
inductive Party where
  | waiter
  | setter
  deriving DecidableEq, Repr

/-- Where the waiting thread stands. -/
inductive WaiterPc where
  | outside
  -- `AwaitState`, before a load of one of its loops
  | spin
  -- `BlockingAwaitState`
  | create
  | load
  | exchange (seen : Word)
  | lock
  | test
  | sleep (woken : Bool)
  | returned (value : Word)
  deriving DecidableEq, Repr

/-- Where the other thread stands in `SetState`. -/
inductive SetterPc where
  | outside
  | load
  | exchange (seen : Word)
  | lock
  | store
  | notify
  | unlock
  | returned
  deriving DecidableEq, Repr

/-- The call: the state before it, the state that is set, the goal mask, and whether an earlier wait
of the thread has constructed the mutex. -/
structure Call where
  old : WriterState
  new : WriterState
  goal : WriterState → Bool
  madeWaitable : Bool

/-- The fields of the writer, the holder of its mutex, and the two threads. -/
structure State where
  word : Word
  madeWaitable : Bool
  holder : Option Party
  waiter : WaiterPc
  setter : SetterPc
  fault : Bool
  deriving DecidableEq, Repr

/-- The two threads call their functions; the waiting thread goes through a loop of `AwaitState`
once more; it takes its next step; the other thread takes its next step; the condition variable
wakes the waiting thread without a reason. -/
inductive Action where
  | await
  | set
  | spin
  | wait
  | put
  | wake
  deriving DecidableEq, Repr

/-- `notify_one`. -/
@[grind =]
def WaiterPc.wake : WaiterPc → WaiterPc
  | .sleep _ => .sleep true
  | p => p

namespace State

/-- `assert`. -/
def check (s : State) (condition : Prop) [Decidable condition] (k : State) : State :=
  if condition then k else { s with fault := true }

/-- The writer may be gone as soon as the waiting thread has returned. -/
def alive (s : State) : Bool :=
  match s.waiter with
  | .returned _ => false
  | _ => true

/-- The next step of the waiting thread. From its loops it goes on to block. -/
def waitStep (call : Call) (s : State) : Option State :=
  match s.waiter with
  | .outside => none
  | .spin =>
      if s.word.meets call.goal then some { s with waiter := .returned s.word }
      else some { s with waiter := .create }
  | .create => some { s with madeWaitable := true, waiter := .load }
  | .load =>
      some (s.check (s.word ≠ .lockedWaiting)
        (if s.word.meets call.goal then { s with waiter := .returned s.word }
        else { s with waiter := .exchange s.word }))
  | .exchange seen =>
      if s.word = seen then some { s with word := .lockedWaiting, waiter := .lock }
      else some (s.check (s.word.meets call.goal) { s with waiter := .returned s.word })
  | .lock =>
      if s.holder = none then
        some (s.check s.madeWaitable { s with holder := some .waiter, waiter := .test })
      else none
  | .test =>
      if s.word = .lockedWaiting then some { s with holder := none, waiter := .sleep false }
      else some (s.check (s.word.meets call.goal)
        { s with holder := none, waiter := .returned s.word })
  | .sleep woken =>
      if woken ∧ s.holder = none then some { s with holder := some .waiter, waiter := .test }
      else none
  | .returned _ => none

/-- The next step of `SetState`. Every one of them touches the writer. -/
def putStep (call : Call) (s : State) : Option State :=
  match s.setter with
  | .outside => none
  | .load =>
      some (s.check s.alive
        { s with setter := if s.word = .lockedWaiting then .lock else .exchange s.word })
  | .exchange seen =>
      if s.word = seen then
        some (s.check s.alive { s with word := .state call.new, setter := .returned })
      else some (s.check (s.alive ∧ s.word = .lockedWaiting) { s with setter := .lock })
  | .lock =>
      if s.holder = none then
        some (s.check (s.alive ∧ s.madeWaitable)
          { s with holder := some .setter, setter := .store })
      else none
  | .store =>
      some (s.check (s.alive ∧ s.word ≠ .state call.new)
        { s with word := .state call.new, setter := .notify })
  | .notify => some (s.check s.alive { s with waiter := s.waiter.wake, setter := .unlock })
  | .unlock => some (s.check s.alive { s with holder := none, setter := .returned })
  | .returned => none

end State

/-- One step of one of the threads. -/
def step (call : Call) (s : State) : Action → Option State
  | .await => if s.waiter = .outside then some { s with waiter := .spin } else none
  | .set => if s.setter = .outside then some { s with setter := .load } else none
  | .spin => if s.waiter = .spin ∧ s.word.meets call.goal = false then some s else none
  | .wait => s.waitStep call
  | .put => s.putStep call
  | .wake => if s.waiter = .sleep false then some { s with waiter := .sleep true } else none

/-- The writer before the two calls. -/
def system (call : Call) : System State Action where
  init := ⟨.state call.old, call.madeWaitable, none, .outside, .outside, false⟩
  step := step call

/-! ### What holds in between -/

/-- The thread has locked the state and has not returned. -/
@[grind =]
def WaiterPc.blocked : WaiterPc → Bool
  | .lock | .test | .sleep _ => true
  | .outside | .spin | .create | .load | .exchange _ | .returned _ => false

/-- The thread has constructed the mutex. -/
@[grind =]
def WaiterPc.waitable : WaiterPc → Bool
  | .load | .exchange _ | .lock | .test | .sleep _ => true
  | .outside | .spin | .create | .returned _ => false

/-- `SetState` has found the state locked. -/
@[grind =]
def SetterPc.foundLocked : SetterPc → Bool
  | .lock | .store | .notify | .unlock => true
  | .outside | .load | .exchange _ | .returned => false

/-- `SetState` has not locked the mutex and has stored nothing. -/
def SetterPc.searching : SetterPc → Bool
  | .outside | .load | .exchange _ | .lock => true
  | .store | .notify | .unlock | .returned => false

/-- `SetState` holds the mutex. -/
@[grind =]
def SetterPc.holds : SetterPc → Bool
  | .store | .notify | .unlock => true
  | .outside | .load | .exchange _ | .lock | .returned => false

/-- `SetState` has stored the new state. -/
@[grind =]
def SetterPc.stored : SetterPc → Bool
  | .notify | .unlock | .returned => true
  | .outside | .load | .exchange _ | .lock | .store => false

/-- What the place of `SetState` says about the state. -/
@[grind =]
def SetterPc.finds (call : Call) (word : Word) : SetterPc → Prop
  | .outside | .load => word = .state call.old ∨ word = .lockedWaiting
  | .exchange seen =>
      seen = .state call.old ∧ (word = .state call.old ∨ word = .lockedWaiting)
  | .lock | .store => word = .lockedWaiting
  | .notify | .unlock | .returned => word = .state call.new

/-- The invariant of the two calls. -/
structure Inv (call : Call) (s : State) : Prop where
  fault : s.fault = false
  word : s.setter.finds call s.word
  setter : s.holder = some .setter ↔ s.setter.holds = true
  waiter : s.holder = some .waiter ↔ s.waiter = .test
  locked : s.word = .lockedWaiting ∨ s.setter.foundLocked = true → s.waiter.blocked = true
  waitable : s.waiter.waitable = true → s.madeWaitable = true
  blocked : s.waiter.blocked = true → s.word ≠ .state call.old
  seen : ∀ seen, s.waiter = .exchange seen → seen = .state call.old
  asleep : s.waiter = .sleep false → s.word = .lockedWaiting ∨ s.setter = .notify
  answer : ∀ value, s.waiter = .returned value → value = .state call.new ∧ s.setter = .returned

/-- The places at which the thread looks at the state without the mutex. -/
def WaiterPc.looks (p : WaiterPc) : Prop :=
  p = .spin ∨ p = .load ∨ ∃ seen, p = .exchange seen

/-- What a step does when the invariant holds: no assertion fails, and every access finds the writer
alive. -/
inductive Move (call : Call) (s : State) : Action → State → Prop where
  | await : s.waiter = .outside → Move call s .await { s with waiter := .spin }
  | set : s.setter = .outside → Move call s .set { s with setter := .load }
  | spin : s.waiter = .spin → Move call s .spin s
  | giveUp : s.waiter = .spin → s.word ≠ .state call.new →
      Move call s .wait { s with waiter := .create }
  | create : s.waiter = .create →
      Move call s .wait { s with madeWaitable := true, waiter := .load }
  | look : s.waiter = .load → s.word = .state call.old →
      Move call s .wait { s with waiter := .exchange s.word }
  | met : s.waiter.looks → s.setter = .returned →
      Move call s .wait { s with waiter := .returned s.word }
  | block {seen : Word} : s.waiter = .exchange seen → s.word = .state call.old →
      Move call s .wait { s with word := .lockedWaiting, waiter := .lock }
  | acquire : s.waiter = .lock ∨ s.waiter = .sleep true → s.holder = none →
      Move call s .wait { s with holder := some .waiter, waiter := .test }
  | sleep : s.waiter = .test → s.word = .lockedWaiting →
      Move call s .wait { s with holder := none, waiter := .sleep false }
  | leave : s.waiter = .test → s.setter = .returned →
      Move call s .wait { s with holder := none, waiter := .returned s.word }
  | unlocked : s.setter = .load → s.word = .state call.old →
      Move call s .put { s with setter := .exchange s.word }
  | locked : s.setter = .load ∨ (∃ seen, s.setter = .exchange seen) → s.word = .lockedWaiting →
      Move call s .put { s with setter := .lock }
  | exchange {seen : Word} : s.setter = .exchange seen → s.word = .state call.old →
      Move call s .put { s with word := .state call.new, setter := .returned }
  | guard : s.setter = .lock → s.holder = none →
      Move call s .put { s with holder := some .setter, setter := .store }
  | store : s.setter = .store →
      Move call s .put { s with word := .state call.new, setter := .notify }
  | notify : s.setter = .notify →
      Move call s .put { s with waiter := s.waiter.wake, setter := .unlock }
  | unlock : s.setter = .unlock → Move call s .put { s with holder := none, setter := .returned }
  | wake : s.waiter = .sleep false → Move call s .wake { s with waiter := .sleep true }

section Steps

variable {call : Call} {s t : State}

/-- An assertion that holds does nothing. -/
theorem State.check_eq {condition : Prop} [Decidable condition] (h : condition) (k : State) :
    s.check condition k = k :=
  if_pos h

/-- The writer is alive as long as `SetState` has not returned. -/
theorem Inv.alive (h : Inv call s) (hput : s.setter ≠ .returned) : s.alive = true := by
  unfold State.alive
  split
  next value heq => exact absurd (h.answer value heq).2 hput
  next => rfl

/-- A thread that is woken has still locked the state. -/
theorem WaiterPc.blocked_wake (p : WaiterPc) : p.wake.blocked = p.blocked := by
  cases p <;> rfl

/-- Waking a thread does not give it the mutex. -/
theorem WaiterPc.wake_eq_test (p : WaiterPc) : p.wake = .test ↔ p = .test := by
  cases p <;> simp [WaiterPc.wake]

/-- A thread that is woken is not asleep. -/
theorem WaiterPc.wake_ne_asleep (p : WaiterPc) : p.wake ≠ .sleep false := by
  cases p <;> simp [WaiterPc.wake]

/-- A thread constructs the mutex before it locks the state. -/
theorem WaiterPc.waitable_of_blocked {p : WaiterPc} (h : p.blocked = true) : p.waitable = true := by
  cases p <;> first | rfl | cases h

/-- A thread that looks without the mutex has not locked the state. -/
theorem WaiterPc.looks.not_blocked {p : WaiterPc} (h : p.looks) : p.blocked = false := by
  obtain rfl | rfl | ⟨seen, rfl⟩ := h <;> rfl

/-- A thread that has not blocked and sees the new state finds `SetState` behind its last access. -/
theorem Inv.setter_returned (h : Inv call s) (hne : call.old ≠ call.new)
    (hword : s.word = .state call.new)
    (hwaits : s.waiter.blocked = false) : s.setter = .returned := by
  have hfinds := h.word
  have hlocked := h.locked
  cases hpc : s.setter <;> grind

/-- The state is the old one, the new one, or locked. -/
theorem Inv.word_cases (h : Inv call s) : s.word = .state call.old ∨ s.word = .lockedWaiting ∨
    s.word = .state call.new := by
  have hfinds := h.word
  cases hpc : s.setter <;> grind

/-- A state that the thread waits for is the new one. -/
theorem Inv.word_of_meets (hold : call.goal call.old = false) (h : Inv call s)
    (hmeets : s.word.meets call.goal = true) : s.word = .state call.new := by
  obtain hword | hword | hword := h.word_cases
  · simp [hword, Word.meets, hold] at hmeets
  · simp [hword, Word.meets] at hmeets
  · exact hword

/-- What a step of the waiting thread does. -/
theorem Inv.wait_move (hold : call.goal call.old = false) (hnew : call.goal call.new = true)
    (h : Inv call s) (hstep : s.waitStep call = some t) : Move call s .wait t := by
  have hne : call.old ≠ call.new := fun heq => by simp [heq, hnew] at hold
  -- the three loads outside the mutex that may find the new state
  have hmet : s.word = .state call.new → s.waiter.looks →
      Move call s .wait { s with waiter := .returned s.word } := fun hword hlooks =>
    .met hlooks (h.setter_returned hne hword hlooks.not_blocked)
  have hunlocked : s.waiter.looks → s.word ≠ .lockedWaiting := fun hlooks hword => by
    simpa [hlooks.not_blocked] using h.locked (.inl hword)
  unfold State.waitStep at hstep
  cases hpc : s.waiter with
  | outside | returned _ => simp [hpc] at hstep
  | spin =>
      simp only [hpc] at hstep
      split_ifs at hstep with hmeets
      · cases hstep
        exact hmet (h.word_of_meets hold hmeets) (.inl hpc)
      · cases hstep
        exact .giveUp hpc fun hword => hmeets (by rw [hword]; exact hnew)
  | create =>
      simp only [hpc] at hstep
      cases hstep
      exact .create hpc
  | load =>
      have hlooks : s.waiter.looks := .inr (.inl hpc)
      simp only [hpc, State.check_eq (hunlocked hlooks)] at hstep
      split_ifs at hstep with hmeets
      · cases hstep
        exact hmet (h.word_of_meets hold hmeets) hlooks
      · cases hstep
        obtain hword | hword | hword := h.word_cases
        · exact .look hpc hword
        · exact absurd hword (hunlocked hlooks)
        · exact absurd (by rw [hword]; exact hnew) hmeets
  | exchange seen =>
      have hlooks : s.waiter.looks := .inr (.inr ⟨seen, hpc⟩)
      obtain rfl := h.seen seen hpc
      simp only [hpc] at hstep
      split_ifs at hstep with hword
      · cases hstep
        exact .block hpc hword
      · obtain hword' | hword' | hword' := h.word_cases
        · exact absurd hword' hword
        · exact absurd hword' (hunlocked hlooks)
        · rw [State.check_eq (by rw [hword']; exact hnew)] at hstep
          cases hstep
          exact hmet hword' hlooks
  | lock =>
      simp only [hpc, State.check_eq (h.waitable (by rw [hpc]; rfl))] at hstep
      split_ifs at hstep with hfree
      cases hstep
      exact .acquire (.inl hpc) hfree
  | test =>
      simp only [hpc] at hstep
      split_ifs at hstep with hword
      · cases hstep
        exact .sleep hpc hword
      · -- the thread holds the mutex, so `SetState` has released it
        have hholder := h.waiter.mpr hpc
        have hword' : s.word = .state call.new := by
          obtain hword' | hword' | hword' := h.word_cases
          · exact absurd hword' (h.blocked (by rw [hpc]; rfl))
          · exact absurd hword' hword
          · exact hword'
        have hput : s.setter = .returned := by
          have hfinds := h.word
          have hholds := h.setter
          cases hset : s.setter <;> grind
        rw [State.check_eq (by rw [hword']; exact hnew)] at hstep
        cases hstep
        exact .leave hpc hput
  | sleep woken =>
      simp only [hpc] at hstep
      split_ifs at hstep with hwoken
      cases hstep
      obtain ⟨rfl, hfree⟩ := hwoken
      exact .acquire (.inr hpc) hfree

/-- What a step of `SetState` does. -/
theorem Inv.put_move (hold : call.goal call.old = false) (hnew : call.goal call.new = true)
    (h : Inv call s) (hstep : s.putStep call = some t) : Move call s .put t := by
  have hne : call.old ≠ call.new := fun heq => by simp [heq, hnew] at hold
  have hfinds := h.word
  unfold State.putStep at hstep
  cases hpc : s.setter with
  | outside | returned => simp [hpc] at hstep
  | load =>
      simp only [hpc, State.check_eq (h.alive (by simp [hpc]))] at hstep
      cases hstep
      rw [hpc] at hfinds
      obtain hword | hword := hfinds
      · rw [if_neg (by simp [hword])]
        exact .unlocked hpc hword
      · rw [if_pos hword]
        exact .locked (.inl hpc) hword
  | exchange seen =>
      rw [hpc] at hfinds
      obtain ⟨rfl, hword | hword⟩ := hfinds
      · simp only [hpc, if_pos hword, State.check_eq (h.alive (by simp [hpc]))] at hstep
        cases hstep
        exact .exchange hpc hword
      · have halive : s.alive = true ∧ s.word = .lockedWaiting := ⟨h.alive (by simp [hpc]), hword⟩
        have hother : ¬ s.word = .state call.old := by simp [hword]
        simp only [hpc, if_neg hother, State.check_eq halive] at hstep
        cases hstep
        exact .locked (.inr ⟨_, hpc⟩) hword
  | lock =>
      have hblocked := h.locked (.inr (by rw [hpc]; rfl))
      have hwaitable := h.waitable (WaiterPc.waitable_of_blocked hblocked)
      have halive : s.alive = true ∧ s.madeWaitable = true := ⟨h.alive (by simp [hpc]), hwaitable⟩
      simp only [hpc, State.check_eq halive] at hstep
      split_ifs at hstep with hfree
      cases hstep
      exact .guard hpc hfree
  | store =>
      rw [hpc] at hfinds
      have halive : s.alive = true ∧ s.word ≠ .state call.new :=
        ⟨h.alive (by simp [hpc]), by rw [show s.word = _ from hfinds]; simp⟩
      simp only [hpc, State.check_eq halive] at hstep
      cases hstep
      exact .store hpc
  | notify =>
      simp only [hpc, State.check_eq (h.alive (by simp [hpc]))] at hstep
      cases hstep
      exact .notify hpc
  | unlock =>
      simp only [hpc, State.check_eq (h.alive (by simp [hpc]))] at hstep
      cases hstep
      exact .unlock hpc

/-- What a step does. -/
theorem Inv.move (hold : call.goal call.old = false) (hnew : call.goal call.new = true)
    (h : Inv call s) {a : Action} (hstep : step call s a = some t) : Move call s a t := by
  cases a with
  | await =>
      simp only [step] at hstep
      split_ifs at hstep with hpc
      cases hstep
      exact .await hpc
  | set =>
      simp only [step] at hstep
      split_ifs at hstep with hpc
      cases hstep
      exact .set hpc
  | spin =>
      simp only [step] at hstep
      split_ifs at hstep with hpc
      cases hstep
      exact .spin hpc.1
  | wait => exact h.wait_move hold hnew hstep
  | put => exact h.put_move hold hnew hstep
  | wake =>
      simp only [step] at hstep
      split_ifs at hstep with hpc
      cases hstep
      exact .wake hpc

/-! ### Every step keeps the invariant -/

/-- The state is locked only by a thread in `BlockingAwaitState`. -/
theorem Inv.not_locked (h : Inv call s) (hfree : s.waiter.blocked = false) :
    ¬ (s.word = .lockedWaiting ∨ s.setter.foundLocked = true) := fun hlocked =>
  Bool.false_ne_true (hfree.symm.trans (h.locked hlocked))

/-- What `SetState` finds at the place where it is. -/
theorem Inv.finds_at (h : Inv call s) {p : SetterPc} (hpc : s.setter = p) : p.finds call s.word :=
  hpc ▸ h.word

/-- Whether `SetState` holds the mutex at the place where it is. -/
theorem Inv.holds_at (h : Inv call s) {p : SetterPc} (hpc : s.setter = p) :
    s.holder = some .setter ↔ p.holds = true :=
  hpc ▸ h.setter

/-- The waiting thread holds the mutex only while it tests the state. -/
theorem Inv.not_holding (h : Inv call s) {p : WaiterPc} (hpc : s.waiter = p) (hp : p ≠ .test) :
    s.holder ≠ some .waiter := fun hholder =>
  hp (hpc.symm.trans (h.waiter.mp hholder))

/-- The waiting thread goes on without having locked the state. -/
theorem Inv.unblocked_to (h : Inv call s) (hfree : s.waiter.blocked = false) {p : WaiterPc}
    {made : Bool} (hp : p.blocked = false) (hmade : p.waitable = true → made = true)
    (hseen : ∀ seen, p = .exchange seen → seen = .state call.old)
    (hanswer : ∀ value, p = .returned value → value = .state call.new ∧ s.setter = .returned) :
    Inv call { s with madeWaitable := made, waiter := p } where
  fault := h.fault
  word := h.word
  setter := h.setter
  waiter := by
    refine iff_of_false (fun hholder => ?_) fun heq => ?_
    · rw [h.waiter.mp hholder] at hfree
      cases hfree
    · rw [show p = .test from heq] at hp
      cases hp
  locked := fun hlocked => absurd hlocked (h.not_locked hfree)
  waitable := hmade
  blocked := fun hblocked => absurd (hp.symm.trans hblocked) Bool.false_ne_true
  seen := hseen
  asleep := fun heq => by
    rw [show p = .sleep false from heq] at hp
    cases hp
  answer := hanswer

/-- The waiting thread goes on with the state locked behind it. -/
theorem Inv.blocked_to (h : Inv call s) (hblocked : s.waiter.blocked = true) {p : WaiterPc}
    {holder : Option Party} (hp : p.blocked = true)
    (hsetter : holder = some .setter ↔ s.setter.holds = true)
    (hwaiter : holder = some .waiter ↔ p = .test)
    (hasleep : p = .sleep false → s.word = .lockedWaiting ∨ s.setter = .notify) :
    Inv call { s with holder := holder, waiter := p } where
  fault := h.fault
  word := h.word
  setter := hsetter
  waiter := hwaiter
  locked := fun _ => hp
  waitable := fun _ => h.waitable (WaiterPc.waitable_of_blocked hblocked)
  blocked := fun _ => h.blocked hblocked
  seen := fun seen heq => by
    rw [show p = .exchange seen from heq] at hp
    cases hp
  asleep := hasleep
  answer := fun value heq => by
    rw [show p = .returned value from heq] at hp
    cases hp

/-- `SetState` goes on. -/
theorem Inv.setter_to (h : Inv call s) (hput : s.setter ≠ .returned) {p : SetterPc} {word : Word}
    {holder : Option Party} (hword : p.finds call word)
    (hsetter : holder = some .setter ↔ p.holds = true)
    (hwaiter : holder = some .waiter ↔ s.waiter = .test)
    (hlocked : word = .lockedWaiting ∨ p.foundLocked = true → s.waiter.blocked = true)
    (hblocked : s.waiter.blocked = true → word ≠ .state call.old)
    (hasleep : s.waiter = .sleep false → word = .lockedWaiting ∨ p = .notify) :
    Inv call { s with word := word, holder := holder, setter := p } where
  fault := h.fault
  word := hword
  setter := hsetter
  waiter := hwaiter
  locked := hlocked
  waitable := h.waitable
  blocked := hblocked
  seen := h.seen
  asleep := hasleep
  -- the waiting thread returns behind `SetState` only
  answer := fun value heq => absurd (h.answer value heq).2 hput

/-- A step of `SetState` before it locks the mutex or stores anything. -/
theorem Inv.searching_to (h : Inv call s) (hold : s.setter.searching = true) {p : SetterPc}
    (hp : p.searching = true) (hword : p.finds call s.word)
    (hlocked : p = .lock → s.word = .lockedWaiting) : Inv call { s with setter := p } := by
  refine h.setter_to (fun heq => by simp [heq, SetterPc.searching] at hold) hword ?_ h.waiter ?_
    h.blocked fun heq => .inl ?_
  · refine iff_of_false (fun hholder => ?_) fun hholds => ?_
    · have hholds := h.setter.mp hholder
      cases hpc : s.setter <;> simp_all [SetterPc.searching, SetterPc.holds]
    · cases p <;> simp_all [SetterPc.searching, SetterPc.holds]
  · rintro (hword | hfound)
    · exact h.locked (.inl hword)
    · refine h.locked (.inl (hlocked ?_))
      cases p <;> simp_all [SetterPc.searching, SetterPc.foundLocked]
  · refine (h.asleep heq).resolve_right fun hnotify => ?_
    simp [hnotify, SetterPc.searching] at hold

/-- A thread that locks the state finds `SetState` before its store. -/
theorem SetterPc.finds.lock {p : SetterPc} (h : p.finds call (.state call.old))
    (hne : call.old ≠ call.new) : p.finds call .lockedWaiting := by
  cases p with
  | outside | load => exact .inr rfl
  | exchange seen => exact ⟨h.1, .inr rfl⟩
  | lock | store => cases h
  | notify | unlock | returned => exact absurd (Word.state.inj h) hne

/-- Every step keeps the invariant. -/
theorem Move.inv {a : Action} (hmove : Move call s a t) (hne : call.old ≠ call.new)
    (h : Inv call s) : Inv call t := by
  cases hmove with
  | spin => exact h
  | await hpc | giveUp hpc => exact h.unblocked_to (by rw [hpc]; rfl) rfl nofun nofun nofun
  | create hpc => exact h.unblocked_to (by rw [hpc]; rfl) rfl (fun _ => rfl) nofun nofun
  | look hpc hword =>
      refine h.unblocked_to (by rw [hpc]; rfl) rfl (fun _ => h.waitable (by rw [hpc]; rfl)) ?_ nofun
      rintro _ ⟨⟩
      exact hword
  | met hlooks hput =>
      refine h.unblocked_to hlooks.not_blocked rfl nofun nofun ?_
      rintro _ ⟨⟩
      exact ⟨h.finds_at hput, hput⟩
  | block hpc hword =>
      have hmade : s.madeWaitable = true := h.waitable (by rw [hpc]; rfl)
      exact ⟨h.fault, (hword ▸ h.word).lock hne, h.setter,
        iff_of_false (h.not_holding hpc nofun) nofun, fun _ => rfl, fun _ => hmade, fun _ => nofun,
        nofun, nofun, nofun⟩
  | acquire hpc hfree =>
      refine h.blocked_to (by obtain hpc | hpc := hpc <;> rw [hpc] <;> rfl) rfl ?_
        (iff_of_true rfl rfl) nofun
      refine iff_of_false nofun fun hholds => ?_
      cases hfree.symm.trans (h.setter.mpr hholds)
  | sleep hpc hword =>
      refine h.blocked_to (by rw [hpc]; rfl) rfl ?_ (iff_of_false nofun nofun) fun _ => .inl hword
      refine iff_of_false nofun fun hholds => ?_
      cases (h.waiter.mpr hpc).symm.trans (h.setter.mpr hholds)
  | wake hpc =>
      exact h.blocked_to (by rw [hpc]; rfl) rfl h.setter
        (iff_of_false (h.not_holding hpc nofun) nofun) nofun
  | leave hpc hput =>
      refine ⟨h.fault, h.word, ?_, iff_of_false nofun nofun, ?_, nofun, nofun, nofun, nofun, ?_⟩
      · exact iff_of_false nofun (by rw [hput]; nofun)
      · rintro (hlocked | hfound)
        · cases (h.finds_at hput).symm.trans hlocked
        · rw [hput] at hfound
          cases hfound
      · rintro _ ⟨⟩
        exact ⟨h.finds_at hput, hput⟩
  | set hpc =>
      have hfinds := h.finds_at hpc
      exact h.searching_to (by rw [hpc]; rfl) rfl hfinds nofun
  | unlocked hpc hword =>
      exact h.searching_to (by rw [hpc]; rfl) rfl ⟨hword, .inl hword⟩ nofun
  | locked hpc hword =>
      refine h.searching_to ?_ rfl hword fun _ => hword
      obtain hpc | ⟨seen, hpc⟩ := hpc <;> rw [hpc] <;> rfl
  | exchange hpc hword =>
      -- the state is not locked, so the waiting thread has not blocked
      have hfree : ¬ s.waiter.blocked = true := fun hblocked => h.blocked hblocked hword
      have hholds := h.holds_at hpc
      refine h.setter_to (by rw [hpc]; nofun) rfl hholds h.waiter ?_
        (fun hb => absurd hb hfree) fun heq => absurd (by rw [heq]; rfl) hfree
      rintro (hlocked | hfound)
      · cases hlocked
      · cases hfound
  | guard hpc hfree =>
      have hword : s.word = .lockedWaiting := h.finds_at hpc
      have hblocked := h.locked (.inl hword)
      refine h.setter_to (by rw [hpc]; nofun) hword (iff_of_true rfl rfl) ?_ (fun _ => hblocked)
        h.blocked fun _ => .inl hword
      refine iff_of_false nofun fun htest => ?_
      cases hfree.symm.trans (h.waiter.mpr htest)
  | store hpc =>
      have hblocked := h.locked (.inr (by rw [hpc]; rfl))
      have hholds := h.holds_at hpc
      exact h.setter_to (by rw [hpc]; nofun) rfl hholds h.waiter (fun _ => hblocked)
        (fun _ heq => hne (Word.state.inj heq).symm) fun _ => .inr rfl
  | notify hpc =>
      have hblocked := h.locked (.inr (by rw [hpc]; rfl))
      have hwoken := h.blocked_to hblocked (s.waiter.blocked_wake.trans hblocked) h.setter
        (h.waiter.trans s.waiter.wake_eq_test.symm) fun heq => absurd heq s.waiter.wake_ne_asleep
      have hfinds := h.finds_at hpc
      have hholds := h.holds_at hpc
      exact hwoken.setter_to (by rw [hpc]; nofun) hfinds hholds hwoken.waiter
        (fun _ => s.waiter.blocked_wake.trans hblocked) hwoken.blocked
        fun heq => absurd heq s.waiter.wake_ne_asleep
  | unlock hpc =>
      have hword : s.word = .state call.new := h.finds_at hpc
      refine h.setter_to (by rw [hpc]; nofun) hword (iff_of_false nofun nofun) ?_ ?_ ?_ ?_
      · refine iff_of_false nofun fun htest => ?_
        cases (h.waiter.mpr htest).symm.trans (h.setter.mpr (by rw [hpc]; rfl))
      · rintro (hlocked | hfound)
        · cases hword.symm.trans hlocked
        · cases hfound
      · exact fun _ heq => hne (Word.state.inj (hword.symm.trans heq)).symm
      · intro heq
        obtain hlocked | hnotify := h.asleep heq
        · cases hword.symm.trans hlocked
        · cases hpc.symm.trans hnotify

end Steps

end P2KVS.WriteThread.Wait
