import LockFreeRingBuf.SharedQueueCalls

/-!
# The active object

`Active` owns a thread that pops callbacks from a `shared_queue` and calls
them, one after the other, until `done_` is set. Clients `send` callbacks
and ask `isActive`; the destructor sends the callback that sets `done_`,
and joins the thread. A callback may itself send more callbacks: `sends`
lists them, `run` is what the callback does to everything else.

The threads of the queue are the object's own (`none`) and the clients'
(`some i`). Beside the memory the model keeps the callbacks that have been
run and the answers of `isActive`.
-/

namespace LockFreeRingBuf

open Transition

/-- What stands in `mq_`. -/
inductive Message (F : Type) where
  | user (f : F)
  /-- The destructor's `[this] { done_ = true; }` -/
  | setDone

structure Callbacks (F σ : Type) where
  run : F → σ → σ
  sends : F → List F
  /-- What moving out of a `std::function` leaves in it. -/
  moved : Message F → Message F

/-- Where `run()` is. -/
inductive ActiveThread (F : Type) where
  /-- `while (!done_)` -/
  | test
  /-- `mq_.wait_and_pop(func)` -/
  | popping
  /-- `func()`, which is going to send `todo`. -/
  | calling (m : Message F) (todo : List F)
  | returned

inductive Destructor (ι : Type) where
  | absent
  | sending (i : ι)
  /-- `thd_.join()` -/
  | joining (i : ι)
  | finished
deriving DecidableEq

structure Active (ι F σ : Type) where
  mq_ : SharedQueue (Option ι) (Message F)
  thd_ : ActiveThread F
  done_ : Bool
  destructor : Destructor ι
  /-- What the callbacks work on. -/
  env : σ
  ran : List F
  verdicts : List (ι × Bool)

inductive ActiveLabel (ι F : Type) where
  | send (i : ι) (f : F)
  | isActive (i : ι)
  | destroy (i : ι)
  | join (i : ι)
  /-- A step of `run()` between its calls on `mq_`. -/
  | thd
  /-- A step inside a call on `mq_`. -/
  | queue (l : QueueLabel (Option ι) (Message F))
  /-- Thread `k` returns from its call on `mq_`. -/
  | ret (k : Option ι)

variable {ι F σ : Type}

/-- What a callback is going to send. -/
def Callbacks.todo (cb : Callbacks F σ) : Message F → List F
  | .user f => cb.sends f
  | .setDone => []

namespace Active

variable [DecidableEq ι] (cb : Callbacks F σ)

/-- A step of the queue. -/
def onQueue (l : QueueLabel (Option ι) (Message F)) (s : Active ι F σ) : Option (Active ι F σ) :=
  (SharedQueue.step cb.moved l s.mq_).map fun q => { s with mq_ := q }

/-- Client `i` may still use the object. -/
def usable (s : Active ι F σ) (i : ι) : Bool :=
  s.destructor ≠ .finished ∧ s.destructor ≠ .joining i

def thdStep (s : Active ι F σ) : Option (Active ι F σ) :=
  match s.thd_ with
  | .test =>
    if s.done_ then some { s with thd_ := .returned }
    else (s.onQueue cb (.call none .waitAndPop)).map ({ · with thd_ := .popping })
  | .calling (.user f) (g :: todo) =>
    (s.onQueue cb (.call none (.push (.user g)))).map ({ · with thd_ := .calling (.user f) todo })
  | .calling (.user f) [] =>
    match s.mq_.thread none with
    | .idle => some { s with env := cb.run f s.env, ran := s.ran ++ [f], thd_ := .test }
    | _ => none
  | .calling .setDone _ => some { s with done_ := true, thd_ := .test }
  | .popping | .returned => none

/-- The call on `mq_` that thread `k` was in has returned `a`. -/
def answered (s : Active ι F σ) (a : QueueAnswer (Message F)) : Option ι → Active ι F σ
  | none =>
    match s.thd_, a with
    | .popping, .popped (some m) => { s with thd_ := .calling m (cb.todo m) }
    | _, _ => s
  | some i =>
    if s.destructor = .sending i then { s with destructor := .joining i }
    else
      match a with
      | .isEmpty b => { s with verdicts := s.verdicts ++ [(i, !b)] }
      | _ => s

def step : ActiveLabel ι F → Active ι F σ → Option (Active ι F σ)
  | .send i f, s => if s.usable i then s.onQueue cb (.call (some i) (.push (.user f))) else none
  | .isActive i, s => if s.usable i then s.onQueue cb (.call (some i) .empty) else none
  | .destroy i, s =>
    if s.destructor = .absent then
      (s.onQueue cb (.call (some i) (.push .setDone))).map ({ · with destructor := .sending i })
    else none
  | .join i, s =>
    match s.thd_ with
    | .returned =>
      if s.destructor = .joining i then some { s with destructor := .finished } else none
    | _ => none
  | .thd, s => s.thdStep cb
  | .queue l, s => if l.inside s.mq_ then s.onQueue cb l else none
  | .ret k, s =>
    match s.mq_.thread k with
    | .ret _ a => (s.onQueue cb (.step k)).map (·.answered cb a k)
    | _ => none

/-- `createActive()`: the object is constructed before its thread starts. -/
def create (env : σ) : Active ι F σ where
  mq_ := .fresh
  thd_ := .test
  done_ := false
  destructor := .absent
  env := env
  ran := []
  verdicts := []

/-- Everything a step can do; `q` is the queue afterwards. -/
inductive Moves (s : Active ι F σ) : ActiveLabel ι F → Active ι F σ → Prop
  | send {i f q} : s.usable i →
      SharedQueue.step cb.moved (.call (some i) (.push (.user f))) s.mq_ = some q →
      Moves s (.send i f) { s with mq_ := q }
  | isActive {i q} : s.usable i → SharedQueue.step cb.moved (.call (some i) .empty) s.mq_ = some q →
      Moves s (.isActive i) { s with mq_ := q }
  | destroy {i q} : s.destructor = .absent →
      SharedQueue.step cb.moved (.call (some i) (.push .setDone)) s.mq_ = some q →
      Moves s (.destroy i) { s with mq_ := q, destructor := .sending i }
  | join {i} : s.thd_ = .returned → s.destructor = .joining i →
      Moves s (.join i) { s with destructor := .finished }
  | stop : s.thd_ = .test → s.done_ = true → Moves s .thd { s with thd_ := .returned }
  | wait {q} : s.thd_ = .test → s.done_ = false →
      SharedQueue.step cb.moved (.call none .waitAndPop) s.mq_ = some q →
      Moves s .thd { s with mq_ := q, thd_ := .popping }
  | resend {f g todo q} : s.thd_ = .calling (.user f) (g :: todo) →
      SharedQueue.step cb.moved (.call none (.push (.user g))) s.mq_ = some q →
      Moves s .thd { s with mq_ := q, thd_ := .calling (.user f) todo }
  | run {f} : s.thd_ = .calling (.user f) [] → s.mq_.thread none = .idle →
      Moves s .thd { s with env := cb.run f s.env, ran := s.ran ++ [f], thd_ := .test }
  | setDone {todo} : s.thd_ = .calling .setDone todo →
      Moves s .thd { s with done_ := true, thd_ := .test }
  | queue {l q} : l.inside s.mq_ = true → SharedQueue.step cb.moved l s.mq_ = some q →
      Moves s (.queue l) { s with mq_ := q }
  | received {c m q} : s.mq_.thread none = .ret c (.popped (some m)) → s.thd_ = .popping →
      SharedQueue.step cb.moved (.step none) s.mq_ = some q →
      Moves s (.ret none) { s with mq_ := q, thd_ := .calling m (cb.todo m) }
  | resent {c a q} : s.mq_.thread none = .ret c a →
      (s.thd_ = .popping → ∀ m, a ≠ .popped (some m)) →
      SharedQueue.step cb.moved (.step none) s.mq_ = some q → Moves s (.ret none) { s with mq_ := q }
  | sentDone {i c a q} : s.mq_.thread (some i) = .ret c a → s.destructor = .sending i →
      SharedQueue.step cb.moved (.step (some i)) s.mq_ = some q →
      Moves s (.ret (some i)) { s with mq_ := q, destructor := .joining i }
  | answered {i c b q} : s.mq_.thread (some i) = .ret c (.isEmpty b) → s.destructor ≠ .sending i →
      SharedQueue.step cb.moved (.step (some i)) s.mq_ = some q →
      Moves s (.ret (some i)) { s with mq_ := q, verdicts := s.verdicts ++ [(i, !b)] }
  | sent {i c a q} : s.mq_.thread (some i) = .ret c a → s.destructor ≠ .sending i →
      (∀ b, a ≠ .isEmpty b) → SharedQueue.step cb.moved (.step (some i)) s.mq_ = some q →
      Moves s (.ret (some i)) { s with mq_ := q }

variable {cb} {s s' : Active ι F σ}

theorem onQueue_some {l : QueueLabel (Option ι) (Message F)} (h : s.onQueue cb l = some s') :
    ∃ q, SharedQueue.step cb.moved l s.mq_ = some q ∧ s' = { s with mq_ := q } := by
  obtain ⟨q, hq, rfl⟩ := Option.map_eq_some_iff.mp h
  exact ⟨q, hq, rfl⟩

theorem thdStep_moves (h : s.thdStep cb = some s') : s.Moves cb .thd s' := by
  unfold thdStep at h
  split at h
  · next hthd =>
      split at h
      · next hdone =>
          obtain rfl := Option.some.inj h
          exact .stop hthd hdone
      · next hdone =>
          obtain ⟨u, hu, rfl⟩ := Option.map_eq_some_iff.mp h
          obtain ⟨q, hq, rfl⟩ := onQueue_some hu
          exact .wait hthd (Bool.not_eq_true _ ▸ hdone) hq
  · next f g todo hthd =>
      obtain ⟨u, hu, rfl⟩ := Option.map_eq_some_iff.mp h
      obtain ⟨q, hq, rfl⟩ := onQueue_some hu
      exact .resend hthd hq
  · next f hthd =>
      split at h
      · next hidle =>
          obtain rfl := Option.some.inj h
          exact .run hthd hidle
      · cases h
  · next todo hthd =>
      obtain rfl := Option.some.inj h
      exact .setDone hthd
  · cases h
  · cases h

theorem step_moves {l : ActiveLabel ι F} (h : step cb l s = some s') : s.Moves cb l s' := by
  cases l with
  | send i f =>
      obtain ⟨husable, hs⟩ := Option.ite_none_right_eq_some.mp h
      obtain ⟨q, hq, rfl⟩ := onQueue_some hs
      exact .send husable hq
  | isActive i =>
      obtain ⟨husable, hs⟩ := Option.ite_none_right_eq_some.mp h
      obtain ⟨q, hq, rfl⟩ := onQueue_some hs
      exact .isActive husable hq
  | destroy i =>
      obtain ⟨habsent, hs⟩ := Option.ite_none_right_eq_some.mp h
      obtain ⟨u, hu, rfl⟩ := Option.map_eq_some_iff.mp hs
      obtain ⟨q, hq, rfl⟩ := onQueue_some hu
      exact .destroy habsent hq
  | join i =>
      simp only [step] at h
      split at h
      · next hthd =>
          obtain ⟨hjoining, hs⟩ := Option.ite_none_right_eq_some.mp h
          obtain rfl := Option.some.inj hs
          exact .join hthd hjoining
      · cases h
  | thd => exact thdStep_moves h
  | queue l =>
      obtain ⟨hinside, hs⟩ := Option.ite_none_right_eq_some.mp h
      obtain ⟨q, hq, rfl⟩ := onQueue_some hs
      exact .queue hinside hq
  | ret k =>
      simp only [step] at h
      split at h
      · next c a hret =>
          obtain ⟨u, hu, rfl⟩ := Option.map_eq_some_iff.mp h
          obtain ⟨q, hq, rfl⟩ := onQueue_some hu
          cases k with
          | none =>
              simp only [Active.answered]
              split
              · next m hthd => exact .received hret hthd hq
              · next hother => exact .resent hret (fun hthd m heq => hother m hthd heq) hq
          | some i =>
              simp only [Active.answered]
              split
              · next hsending => exact .sentDone hret hsending hq
              · next hsending =>
                  split
                  · next b => exact .answered hret hsending hq
                  · next hother => exact .sent hret hsending hother hq
      · cases h

end Active

/-- An active object, created on `env`, and its clients. -/
def activeSystem (ι : Type) {F σ : Type} [DecidableEq ι] (cb : Callbacks F σ) (env : σ) :
    System (ActiveLabel ι F) (Active ι F σ) where
  init s := s = .create env
  step := Active.step cb

end LockFreeRingBuf
