import LockFreeRingBuf.RingQueue
import LockFreeRingBuf.Lib.Transition
import Mathlib.Logic.Function.Basic

/-!
# The queue under a mutex

`shared_queue` keeps a `std::queue` under the mutex `m_`, with the
condition variable `data_cond_` for `wait_and_pop`. Any threads may call
it. A call is cut into taking `m_`, one step for each access to `queue_`,
giving `m_` up and, in `push`, notifying after that. `data_cond_.wait`
gives `m_` up and blocks in one step; a blocked thread goes on when a
notification picks it, or for no reason, and has to take `m_` again.

Beside the memory the model keeps, and the code never reads, everything
pushed and everything popped so far.
-/

namespace LockFreeRingBuf

open Transition

inductive QueueCall (T : Type) where
  | push (item : T)
  | tryAndPop
  | waitAndPop
  | empty
  | size
deriving DecidableEq

inductive QueueAnswer (T : Type) where
  | done
  /-- What is left in `popped_item`; `none` is the answer `false`, with
  `popped_item` as it was. -/
  | popped (t : Option T)
  | isEmpty (b : Bool)
  | size (n : Unsigned)

/-- Where a thread is. -/
inductive QueueThread (T : Type) where
  | idle
  /-- The constructor of the `lock_guard` or `unique_lock`. -/
  | lock (c : QueueCall T)
  /-- `queue_.push(std::move(item))` -/
  | insert (item : T)
  /-- `queue_.empty()`, or `queue_.size()` -/
  | test (c : QueueCall T)
  /-- `popped_item = std::move(queue_.front())` -/
  | front (c : QueueCall T)
  /-- `queue_.pop()`, with `t` in `popped_item` -/
  | pop (c : QueueCall T) (t : T)
  /-- About to release `m_` and block in `data_cond_.wait(lock)`. -/
  | wait
  /-- Blocked in `data_cond_.wait(lock)`. -/
  | blocked
  /-- Woken, and about to lock `m_` again. -/
  | relock
  /-- The destructor of the lock. -/
  | unlock (c : QueueCall T) (a : QueueAnswer T)
  /-- `data_cond_.notify_one()` -/
  | notify (item : T)
  | ret (c : QueueCall T) (a : QueueAnswer T)

structure SharedQueue (I T : Type) where
  queue_ : List T
  /-- The thread that holds the mutex. -/
  m_ : Option I
  /-- The threads blocked on the condition variable. -/
  data_cond_ : List I
  thread : I → QueueThread T
  pushed : List T
  popped : List T

inductive QueueLabel (I T : Type) where
  | call (i : I) (c : QueueCall T)
  | step (i : I)
  /-- `notify_one()`, which unblocks the thread named, if any is blocked. -/
  | notify (i : I) (woken : Option I)
  /-- A wakeup that nobody sent. -/
  | wakeup (i : I)

variable {I T : Type}

/-- Where a call goes on once it holds `m_`. -/
def QueueCall.locked : QueueCall T → QueueThread T
  | .push item => .insert item
  | c => .test c

/-- Where a call goes on after it has looked at the queue. -/
def QueueCall.tested (queue_ : List T) : QueueCall T → QueueThread T
  | .push item => .insert item
  | .tryAndPop => if queue_.isEmpty then .unlock .tryAndPop (.popped none) else .front .tryAndPop
  | .waitAndPop => if queue_.isEmpty then .wait else .front .waitAndPop
  | .empty => .unlock .empty (.isEmpty queue_.isEmpty)
  | .size => .unlock .size (.size (.ofNat 32 queue_.length))

/-- Where a call goes on once it has released `m_`. -/
def QueueCall.unlocked (a : QueueAnswer T) : QueueCall T → QueueThread T
  | .push item => .notify item
  | c => .ret c a

namespace SharedQueue

/-- What is pushed and not popped yet. -/
def contents (s : SharedQueue I T) : List T := s.pushed.drop s.popped.length

variable [DecidableEq I]

def goto (i : I) (p : QueueThread T) (s : SharedQueue I T) : SharedQueue I T :=
  { s with thread := Function.update s.thread i p }

/-- Unblock `j`. -/
def wake (j : I) (s : SharedQueue I T) : SharedQueue I T :=
  { s with data_cond_ := s.data_cond_.erase j }.goto j .relock

/-- The next step of thread `i`; `none` while it has to wait. `moved` is what
`std::move` leaves behind. -/
def threadStep (moved : T → T) (i : I) (s : SharedQueue I T) : Option (SharedQueue I T) :=
  match s.thread i with
  | .lock c =>
    match s.m_ with
    | none => some ({ s with m_ := some i }.goto i c.locked)
    | some _ => none
  | .insert item =>
    some ({ s with queue_ := s.queue_ ++ [item], pushed := s.pushed ++ [item] }.goto i
      (.unlock (.push item) .done))
  | .test c => some (s.goto i (c.tested s.queue_))
  | .front c =>
    match s.queue_ with
    | [] => none
    | t :: rest => some ({ s with queue_ := moved t :: rest }.goto i (.pop c t))
  | .pop c t =>
    match s.queue_ with
    | [] => none
    | _ :: rest =>
      some ({ s with queue_ := rest, popped := s.popped ++ [t] }.goto i
        (.unlock c (.popped (some t))))
  | .wait => some ({ s with m_ := none, data_cond_ := s.data_cond_ ++ [i] }.goto i .blocked)
  | .relock =>
    match s.m_ with
    | none => some ({ s with m_ := some i }.goto i (.test .waitAndPop))
    | some _ => none
  | .unlock c a => some ({ s with m_ := none }.goto i (c.unlocked a))
  | .ret _ _ => some (s.goto i .idle)
  | .idle | .blocked | .notify _ => none

def step (moved : T → T) : QueueLabel I T → SharedQueue I T → Option (SharedQueue I T)
  | .call i c, s =>
    match s.thread i with
    | .idle => some (s.goto i (.lock c))
    | _ => none
  | .step i, s => s.threadStep moved i
  | .notify i woken, s =>
    match s.thread i, woken with
    | .notify item, none =>
      if s.data_cond_.isEmpty then some (s.goto i (.ret (.push item) .done)) else none
    | .notify item, some j =>
      if j ∈ s.data_cond_ then some ((s.wake j).goto i (.ret (.push item) .done)) else none
    | _, _ => none
  | .wakeup j, s => if j ∈ s.data_cond_ then some (s.wake j) else none

/-- The constructor's state. -/
def fresh : SharedQueue I T where
  queue_ := []
  m_ := none
  data_cond_ := []
  thread _ := .idle
  pushed := []
  popped := []

/-- Everything a step can do. -/
inductive Moves (moved : T → T) (s : SharedQueue I T) : QueueLabel I T → SharedQueue I T → Prop
  | call {i c} : s.thread i = .idle → Moves moved s (.call i c) (s.goto i (.lock c))
  | lock {i c} : s.thread i = .lock c → s.m_ = none →
      Moves moved s (.step i) ({ s with m_ := some i }.goto i c.locked)
  | insert {i item} : s.thread i = .insert item → Moves moved s (.step i)
      ({ s with queue_ := s.queue_ ++ [item], pushed := s.pushed ++ [item] }.goto i
        (.unlock (.push item) .done))
  | test {i c} : s.thread i = .test c → Moves moved s (.step i) (s.goto i (c.tested s.queue_))
  | front {i c t rest} : s.thread i = .front c → s.queue_ = t :: rest → Moves moved s (.step i)
      ({ s with queue_ := moved t :: rest }.goto i (.pop c t))
  | pop {i c t t' rest} : s.thread i = .pop c t → s.queue_ = t' :: rest → Moves moved s (.step i)
      ({ s with queue_ := rest, popped := s.popped ++ [t] }.goto i (.unlock c (.popped (some t))))
  | wait {i} : s.thread i = .wait → Moves moved s (.step i)
      ({ s with m_ := none, data_cond_ := s.data_cond_ ++ [i] }.goto i .blocked)
  | relock {i} : s.thread i = .relock → s.m_ = none →
      Moves moved s (.step i) ({ s with m_ := some i }.goto i (.test .waitAndPop))
  | unlock {i c a} : s.thread i = .unlock c a →
      Moves moved s (.step i) ({ s with m_ := none }.goto i (c.unlocked a))
  | ret {i c a} : s.thread i = .ret c a → Moves moved s (.step i) (s.goto i .idle)
  | notifyNone {i item} : s.thread i = .notify item → s.data_cond_ = [] →
      Moves moved s (.notify i none) (s.goto i (.ret (.push item) .done))
  | notifyOne {i item j} : s.thread i = .notify item → j ∈ s.data_cond_ →
      Moves moved s (.notify i (some j)) ((s.wake j).goto i (.ret (.push item) .done))
  | wakeup {j} : j ∈ s.data_cond_ → Moves moved s (.wakeup j) (s.wake j)

theorem threadStep_moves {moved : T → T} {i : I} {s s' : SharedQueue I T}
    (h : s.threadStep moved i = some s') : s.Moves moved (.step i) s' := by
  unfold threadStep at h
  cases hi : s.thread i with
  | idle => simp only [hi] at h; cases h
  | blocked => simp only [hi] at h; cases h
  | notify item => simp only [hi] at h; cases h
  | lock c =>
      simp only [hi] at h
      split at h
      · next hm => obtain rfl := Option.some.inj h; exact .lock hi hm
      · cases h
  | relock =>
      simp only [hi] at h
      split at h
      · next hm => obtain rfl := Option.some.inj h; exact .relock hi hm
      · cases h
  | front c =>
      simp only [hi] at h
      split at h
      · cases h
      · next t rest hq => obtain rfl := Option.some.inj h; exact .front hi hq
  | pop c t =>
      simp only [hi] at h
      split at h
      · cases h
      · next t' rest hq => obtain rfl := Option.some.inj h; exact .pop hi hq
  | insert item => simp only [hi] at h; obtain rfl := Option.some.inj h; exact .insert hi
  | test c => simp only [hi] at h; obtain rfl := Option.some.inj h; exact .test hi
  | wait => simp only [hi] at h; obtain rfl := Option.some.inj h; exact .wait hi
  | unlock c a => simp only [hi] at h; obtain rfl := Option.some.inj h; exact .unlock hi
  | ret c a => simp only [hi] at h; obtain rfl := Option.some.inj h; exact .ret hi

theorem step_moves {moved : T → T} {l : QueueLabel I T} {s s' : SharedQueue I T}
    (h : step moved l s = some s') : s.Moves moved l s' := by
  cases l with
  | call i c =>
      simp only [step] at h
      split at h
      · next hi => obtain rfl := Option.some.inj h; exact .call hi
      · cases h
  | step i => exact threadStep_moves h
  | notify i woken =>
      simp only [step] at h
      split at h
      · next item hi =>
          obtain ⟨hnone, heq⟩ := Option.ite_none_right_eq_some.mp h
          obtain rfl := Option.some.inj heq
          exact .notifyNone hi (List.isEmpty_iff.mp hnone)
      · next item j hi =>
          obtain ⟨hmem, heq⟩ := Option.ite_none_right_eq_some.mp h
          obtain rfl := Option.some.inj heq
          exact .notifyOne hi hmem
      · cases h
  | wakeup j =>
      obtain ⟨hmem, heq⟩ := Option.ite_none_right_eq_some.mp h
      obtain rfl := Option.some.inj heq
      exact .wakeup hmem

end SharedQueue

/-- A `shared_queue` called by the threads `I`. -/
def queueSystem (I : Type) {T : Type} [DecidableEq I] (moved : T → T) :
    System (QueueLabel I T) (SharedQueue I T) where
  init s := s = .fresh
  step := SharedQueue.step moved

abbrev QueueRun (I : Type) {T : Type} [DecidableEq I] (moved : T → T) := Run (queueSystem I moved)

end LockFreeRingBuf
