import LockFreeRingBuf.SharedQueueRules

/-!
# Calls on the queue, thread by thread

Inside a call a thread stays in that call, with the same arguments, until
it returns; and only the step that pops hands it an element.
-/

namespace LockFreeRingBuf

open Transition

variable {I T : Type}

/-- The call a thread is in. -/
def QueueThread.call : QueueThread T → Option (QueueCall T)
  | .idle => none
  | .lock c | .test c | .front c | .pop c _ | .unlock c _ | .ret c _ => some c
  | .insert item | .notify item => some (.push item)
  | .wait | .blocked | .relock => some .waitAndPop

/-- What an answer hands over. -/
def QueueAnswer.taken : QueueAnswer T → List T
  | .popped (some t) => [t]
  | _ => []

/-- What a thread has popped in the call it is in. -/
def QueueThread.taken : QueueThread T → List T
  | .unlock _ a | .ret _ a => a.taken
  | _ => []

theorem QueueCall.locked_call (c : QueueCall T) : c.locked.call = some c := by
  cases c <;> rfl

theorem QueueCall.tested_call (c : QueueCall T) (queue_ : List T) :
    (c.tested queue_).call = some c := by
  cases c with
  | tryAndPop | waitAndPop =>
      dsimp only [QueueCall.tested]
      split <;> rfl
  | _ => rfl

theorem QueueCall.unlocked_call (c : QueueCall T) (a : QueueAnswer T) :
    (c.unlocked a).call = some c := by
  cases c <;> rfl

theorem QueueCall.locked_taken (c : QueueCall T) : c.locked.taken = [] := by
  cases c <;> rfl

theorem QueueCall.tested_taken (c : QueueCall T) (queue_ : List T) :
    (c.tested queue_).taken = [] := by
  cases c with
  | tryAndPop | waitAndPop =>
      dsimp only [QueueCall.tested]
      split <;> rfl
  | _ => rfl

/-- The label is that of a step inside a call. -/
def QueueLabel.inside (q : SharedQueue I T) : QueueLabel I T → Bool
  | .call _ _ => false
  | .step k =>
    match q.thread k with
    | .ret _ _ => false
    | _ => true
  | _ => true

namespace SharedQueue

variable {moved : T → T} {s s' : SharedQueue I T} {l : QueueLabel I T} {k : I}

/-- A thread that is in no call, or in one that does not pop, has popped nothing. -/
theorem taken_eq_nil (hlock : Locking s)
    (hcall : ∀ c, (s.thread k).call = some c → c.pops = false) : (s.thread k).taken = [] := by
  have hsound := (hlock.place k).sound
  cases hk : s.thread k with
  | unlock c a | ret c a =>
      rw [hk] at hcall hsound
      have hpops : c.pops = false := hcall c rfl
      cases c with
      | tryAndPop | waitAndPop => cases hpops
      | push =>
          obtain rfl : a = .done := hsound
          rfl
      | empty | size =>
          obtain ⟨_, rfl⟩ := hsound
          rfl
  | _ => rfl

variable [DecidableEq I]

/-- What a step inside a call can do to the histories, and to what the threads
have popped in their calls. -/
inductive Inside (s s' : SharedQueue I T) : Prop
  | quiet : s'.pushed = s.pushed → s'.popped = s.popped →
      (∀ i, (s'.thread i).taken = (s.thread i).taken) → Inside s s'
  | insert {k item} : s.thread k = .insert item → s'.pushed = s.pushed ++ [item] →
      s'.popped = s.popped → (∀ i, (s'.thread i).taken = (s.thread i).taken) → Inside s s'
  | pop {k c t} : s.thread k = .pop c t → s'.pushed = s.pushed → s'.popped = s.popped ++ [t] →
      (s'.thread k).taken = [t] → (∀ i, i ≠ k → (s'.thread i).taken = (s.thread i).taken) →
      Inside s s'

/-- Thread `k` goes on in its call, and the histories stay as they are. -/
theorem inside_of_quiet {p : QueueThread T} (hthread : s'.thread = Function.update s.thread k p)
    (hpushed : s'.pushed = s.pushed) (hpopped : s'.popped = s.popped)
    (hcall : p.call = (s.thread k).call) (htaken : p.taken = (s.thread k).taken) :
    (∀ i, (s'.thread i).call = (s.thread i).call) ∧ Inside s s' := by
  refine ⟨fun i => update_eq _ hthread fun _ => hcall, .quiet hpushed hpopped fun i => ?_⟩
  exact update_eq _ hthread fun _ => htaken

/-- A step inside a call leaves every thread in its call. -/
theorem Moves.inside (hmove : s.Moves moved l s') (hlock : Locking s)
    (hinside : l.inside s = true) :
    (∀ i, (s'.thread i).call = (s.thread i).call) ∧ Inside s s' := by
  cases hmove with
  | call hk => cases hinside
  | ret hk =>
      simp only [QueueLabel.inside, hk] at hinside
      cases hinside
  | @lock k c hk hm =>
      refine inside_of_quiet rfl rfl rfl ?_ ?_
      · rw [c.locked_call, hk]; rfl
      · rw [c.locked_taken, hk]; rfl
  | @test k c hk =>
      refine inside_of_quiet rfl rfl rfl ?_ ?_
      · rw [c.tested_call, hk]; rfl
      · rw [c.tested_taken, hk]; rfl
  | @unlock k c a hk =>
      refine inside_of_quiet rfl rfl rfl ?_ ?_
      · rw [c.unlocked_call, hk]; rfl
      · have hsound := (hlock.place k).sound
        rw [hk] at hsound ⊢
        cases c with
        | push item =>
            obtain rfl : a = .done := hsound
            rfl
        | _ => rfl
  | relock hk hm | front hk hqueue | wait hk | notifyNone hk =>
      refine inside_of_quiet rfl rfl rfl ?_ ?_
      · rw [hk]; rfl
      · rw [hk]; rfl
  | insert hk =>
      refine ⟨fun i => update_eq _ rfl fun _ => ?_, .insert hk rfl rfl fun i => ?_⟩
      · rw [hk]; rfl
      · exact update_eq _ rfl fun _ => by rw [hk]; rfl
  | @pop k c t t' rest hk hqueue =>
      refine ⟨fun i => update_eq _ rfl fun _ => ?_, .pop hk rfl rfl ?_ fun i hi => ?_⟩
      · rw [hk]; rfl
      · rw [goto_self]; rfl
      · rw [goto_of_ne hi]
  | @notifyOne k item j hk hj =>
      have hne : j ≠ k := (hlock.ne_of_notify hk hj).symm
      have hblocked := (hlock.place j).blocked.mpr hj
      -- The thread woken and the one that notifies go on at once.
      have hthread : ∀ {α : Type} (f : QueueThread T → α),
          f (s.thread k) = f (.ret (.push item) .done) → f .blocked = f .relock →
          ∀ i, f ((((s.wake j).goto k (.ret (.push item) .done)).thread) i) = f (s.thread i) := by
        intro α f hret hrelock i
        rw [update_eq f rfl fun _ => ?_, update_eq f rfl fun _ => ?_]
        · rw [hblocked, hrelock]
        · rw [wake_thread_of_ne hne.symm, hret]
      exact ⟨hthread _ (by rw [hk]; rfl) rfl, .quiet rfl rfl (hthread _ (by rw [hk]; rfl) rfl)⟩
  | @wakeup j hj =>
      have hblocked := (hlock.place j).blocked.mpr hj
      refine inside_of_quiet rfl rfl rfl ?_ ?_
      · rw [hblocked]; rfl
      · rw [hblocked]; rfl

theorem begins {c : QueueCall T} (h : SharedQueue.step moved (.call k c) s = some s') :
    s.thread k = .idle ∧ s' = s.goto k (.lock c) := by
  cases step_moves h with
  | call hk => exact ⟨hk, rfl⟩

theorem returns {c : QueueCall T} {a : QueueAnswer T} (hk : s.thread k = .ret c a)
    (h : SharedQueue.step moved (.step k) s = some s') : s' = s.goto k .idle := by
  cases step_moves h with
  | ret => rfl
  | _ hk' => cases hk.symm.trans hk'

end SharedQueue

end LockFreeRingBuf
