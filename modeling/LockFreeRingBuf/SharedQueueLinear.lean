import LockFreeRingBuf.SharedQueueRules

/-!
# The queue under a mutex is linearizable

Seen by its callers, however many and however interleaved, a
`shared_queue` is a first-in first-out list on which every call is a
single step: `push` where it inserts, a successful `try_and_pop` or
`wait_and_pop` where it removes the front, and `empty`, `size` and a
`try_and_pop` that answers `false` where they look at the queue.
-/

namespace LockFreeRingBuf

open Transition Linearizability

variable {I T : Type}

/-- The queue as its callers see it. A `wait_and_pop` on the empty queue has no
answer. -/
inductive FifoStep : Spec (QueueCall T) (QueueAnswer T) (List T)
  | push {item q} : FifoStep (.push item) .done q (q ++ [item])
  | popped {c t q} : c.pops = true → FifoStep c (.popped (some t)) (t :: q) q
  | refused : FifoStep .tryAndPop (.popped none) [] []
  | empty {q} : FifoStep .empty (.isEmpty q.isEmpty) q q
  | size {q} : FifoStep .size (.size (.ofNat 32 q.length)) q q

/-- How far a thread's call has come. -/
def QueueThread.status : QueueThread T → Status (QueueCall T) (QueueAnswer T)
  | .idle => .idle
  | .lock c | .test c | .front c | .pop c _ => .invoked c
  | .insert item => .invoked (.push item)
  | .wait | .blocked | .relock => .invoked .waitAndPop
  | .unlock c a | .ret c a => .applied c a
  | .notify item => .applied (.push item) .done

namespace SharedQueue

/-- The call that takes effect in a step. -/
def effect (s : SharedQueue I T) : QueueLabel I T → Option (I × QueueCall T × QueueAnswer T)
  | .step i =>
    match s.thread i with
    | .insert item => some (i, .push item, .done)
    | .pop c t => some (i, c, .popped (some t))
    | .test c =>
      match c.tested s.queue_ with
      | .unlock c a => some (i, c, a)
      | _ => none
    | _ => none
  | _ => none

variable [DecidableEq I] {moved : T → T} {s s' : SharedQueue I T} {l : QueueLabel I T} {i : I}

theorem locked_status (c : QueueCall T) : c.locked.status = .invoked c := by
  cases c <;> rfl

/-- Looking at the queue leaves a call where it was, or answers it. -/
theorem tested_status (c : QueueCall T) (queue_ : List T) :
    (c.tested queue_).status = .invoked c ∨ ∃ a, c.tested queue_ = .unlock c a := by
  cases c with
  | push | waitAndPop =>
      dsimp only [QueueCall.tested]
      left
      first | rfl | (split <;> rfl)
  | tryAndPop =>
      dsimp only [QueueCall.tested]
      split
      · exact .inr ⟨_, rfl⟩
      · exact .inl rfl
  | empty | size => exact .inr ⟨_, rfl⟩

/-- The answers that change nothing. -/
theorem tested_answers {c c' : QueueCall T} {a : QueueAnswer T} {q : List T}
    (h : c.tested q = .unlock c' a) : c = c' ∧ FifoStep c a q q := by
  cases c with
  | push => cases h
  | waitAndPop =>
      cases q with
      | nil | cons => cases h
  | tryAndPop =>
      cases q with
      | cons => cases h
      | nil =>
          obtain ⟨rfl, rfl⟩ := QueueThread.unlock.inj h
          exact ⟨rfl, .refused⟩
  | empty =>
      obtain ⟨rfl, rfl⟩ := QueueThread.unlock.inj h
      exact ⟨rfl, .empty⟩
  | size =>
      obtain ⟨rfl, rfl⟩ := QueueThread.unlock.inj h
      exact ⟨rfl, .size⟩

theorem unlocked_status {c : QueueCall T} {a : QueueAnswer T} (h : c.Answers a) :
    (c.unlocked a).status = .applied c a := by
  cases c with
  | push item =>
      obtain rfl : a = .done := h
      rfl
  | _ => rfl

theorem wake_status {j : I} (hlock : Locking s) (hj : j ∈ s.data_cond_) :
    ((s.wake j).thread i).status = (s.thread i).status :=
  update_eq QueueThread.status rfl fun _ => by rw [(hlock.place j).blocked.mpr hj]; rfl

/-- A step in which thread `i` neither begins a call, nor returns, nor takes
effect, leaves it where it is in its call. -/
theorem Moves.status_eq (hmove : s.Moves moved l s') (hlock : Locking s)
    (hcall : ∀ c, l ≠ .call i c) (hret : ∀ c a, l = .step i → s.thread i ≠ .ret c a)
    (heffect : ∀ e, s.effect l ≠ some (i, e)) :
    (s'.thread i).status = (s.thread i).status := by
  cases hmove with
  | @call k c hk =>
      exact update_eq QueueThread.status rfl fun heq => absurd (by rw [heq]) (hcall c)
  | @lock k c hk hm =>
      exact update_eq QueueThread.status rfl fun _ => by rw [locked_status, hk]; rfl
  | relock hk hm | front hk hqueue | wait hk =>
      exact update_eq QueueThread.status rfl fun _ => by rw [hk]; rfl
  | @insert k item hk =>
      refine update_eq QueueThread.status rfl fun heq => absurd ?_ (heffect (.push item, .done))
      simp only [effect, hk, heq]
  | @pop k c t t' rest hk hqueue =>
      refine update_eq QueueThread.status rfl fun heq => absurd ?_ (heffect (c, .popped (some t)))
      simp only [effect, hk, heq]
  | @test k c hk =>
      refine update_eq QueueThread.status rfl fun heq => ?_
      rcases tested_status c s.queue_ with hstatus | ⟨a, ha⟩
      · rw [hstatus, hk]
        rfl
      · refine absurd ?_ (heffect (c, a))
        simp only [effect, hk, ha, heq]
  | @unlock k c a hk =>
      refine update_eq QueueThread.status rfl fun _ => ?_
      have hsound := (hlock.place k).sound
      rw [hk] at hsound ⊢
      exact unlocked_status hsound
  | @ret k c a hk =>
      refine update_eq QueueThread.status rfl fun heq => ?_
      exact absurd (heq ▸ hk) (hret c a (by rw [heq]))
  | notifyNone hk => exact update_eq QueueThread.status rfl fun _ => by rw [hk]; rfl
  | @notifyOne k item j hk hj =>
      refine (update_eq QueueThread.status (s := s.wake j) rfl fun _ => ?_).trans
        (wake_status hlock hj)
      rw [wake_thread_of_ne (hlock.ne_of_notify hk hj), hk]
      rfl
  | wakeup hj => exact wake_status hlock hj

/-- A thread that takes effect had invoked the operation, and will return the
answer; the contents change as specified. -/
theorem Moves.takes {c : QueueCall T} {a : QueueAnswer T} (hmove : s.Moves moved l s')
    (hok : Ok moved s) (heffect : s.effect l = some (i, c, a)) :
    (s.thread i).status = .invoked c ∧ (s'.thread i).status = .applied c a
      ∧ FifoStep c a s.contents s'.contents := by
  cases hmove with
  | call | notifyNone | notifyOne | wakeup => cases heffect
  | lock hk hm | relock hk hm | front hk hqueue | wait hk | unlock hk | ret hk =>
      simp only [effect, hk] at heffect
      cases heffect
  | @insert k item hk =>
      simp only [effect, hk] at heffect
      obtain ⟨rfl, rfl, rfl⟩ : k = i ∧ QueueCall.push item = c ∧ .done = a := by
        simpa using heffect
      refine ⟨by rw [hk]; rfl, by rw [goto_self]; rfl, ?_⟩
      show FifoStep _ _ s.contents ((s.pushed ++ [item]).drop s.popped.length)
      rw [insert_contents hok.stored.ordered]
      exact .push
  | @pop k c' t t' rest hk hqueue =>
      simp only [effect, hk] at heffect
      obtain ⟨rfl, rfl, rfl⟩ : k = i ∧ c' = c ∧ .popped (some t) = a := by
        simpa using heffect
      have hkeeps := hok.stored.holding hok.locking (i := k) (by rw [hk]; rfl)
      have hsound := (hok.locking.place k).sound
      rw [hk] at hkeeps hsound
      obtain ⟨rest', hcontents, -⟩ := hkeeps
      refine ⟨by rw [hk]; rfl, by rw [goto_self]; rfl, ?_⟩
      show FifoStep _ _ s.contents (s.pushed.drop (s.popped ++ [t]).length)
      rw [pop_contents hcontents, hcontents]
      exact .popped hsound
  | @test k c' hk =>
      have hkeeps := hok.stored.holding hok.locking (i := k) (by rw [hk]; rfl)
      rw [hk] at hkeeps
      have hqueue : s.queue_ = s.contents := hkeeps
      simp only [effect, hk] at heffect
      split at heffect
      · next c'' b hb =>
          obtain ⟨rfl, hstep⟩ := tested_answers hb
          obtain ⟨rfl, rfl, rfl⟩ : k = i ∧ c' = c ∧ b = a := by simpa using heffect
          rw [hqueue] at hstep
          exact ⟨by rw [hk]; rfl, by rw [goto_self, hb]; rfl, hstep⟩
      · cases heffect

/-- The contents change only when a call takes effect. -/
theorem Moves.contents_eq (hmove : s.Moves moved l s') (heffect : s.effect l = none) :
    s'.contents = s.contents := by
  cases hmove with
  | insert hk | pop hk hqueue =>
      simp only [effect, hk] at heffect
      cases heffect
  | _ => rfl

theorem Moves.pushed_grows (hmove : s.Moves moved l s') : s.pushed <+: s'.pushed := by
  cases hmove with
  | insert hk => exact List.prefix_append _ _
  | _ => exact List.prefix_rfl

theorem Moves.popped_le (hmove : s.Moves moved l s') : s.popped.length ≤ s'.popped.length := by
  cases hmove with
  | pop => simp [SharedQueue.goto]
  | _ => exact Nat.le_refl _

/-- A `push` puts its item last when it takes effect. -/
theorem Moves.pushed_eq {item : T} {a : QueueAnswer T} (hmove : s.Moves moved l s')
    (hlock : Locking s) (heffect : s.effect l = some (i, .push item, a)) :
    s'.pushed = s.pushed ++ [item] := by
  cases hmove with
  | call | notifyNone | notifyOne | wakeup => cases heffect
  | lock hk hm | relock hk hm | front hk hqueue | wait hk | unlock hk | ret hk =>
      simp only [effect, hk] at heffect
      cases heffect
  | @insert k item' hk =>
      simp only [effect, hk] at heffect
      obtain ⟨-, rfl, -⟩ : k = i ∧ item' = item ∧ .done = a := by simpa using heffect
      rfl
  | @pop k c t t' rest hk hqueue =>
      have hsound := (hlock.place k).sound
      rw [hk] at hsound
      simp only [effect, hk] at heffect
      obtain ⟨-, rfl, -⟩ : k = i ∧ c = .push item ∧ .popped (some t) = a := by simpa using heffect
      cases hsound
  | @test k c hk =>
      have hsound := (hlock.place k).sound
      rw [hk] at hsound
      simp only [effect, hk] at heffect
      split at heffect
      · next c' b hb =>
          obtain ⟨rfl, -⟩ := tested_answers hb
          obtain ⟨-, rfl, -⟩ : k = i ∧ c = .push item ∧ b = a := by simpa using heffect
          exact absurd rfl (hsound item)
      · cases heffect

end SharedQueue

namespace QueueRun

variable [DecidableEq I] {moved : T → T} (ρ : QueueRun I moved)

/-- The calls and returns of a run. -/
def history : History I (QueueCall T) (QueueAnswer T) where
  begins t i c := ρ.label t = some (.call i c)
  returns t i a := ρ.label t = some (.step i) ∧ ∃ c, (ρ.state t).thread i = .ret c a

def effect (t : Nat) : Option (I × QueueCall T × QueueAnswer T) :=
  (ρ.label t).bind (ρ.state t).effect

variable {ρ} {t : Nat} {l : QueueLabel I T}

theorem moves (hl : ρ.label t = some l) : (ρ.state t).Moves moved l (ρ.state (t + 1)) := by
  rcases ρ.next t with ⟨hnone, -⟩ | ⟨l', hl', hstep⟩
  · cases hl.symm.trans hnone
  · obtain rfl := Option.some.inj (hl.symm.trans hl')
    exact SharedQueue.step_moves hstep

theorem effect_cases {i : I} {c : QueueCall T} {a : QueueAnswer T}
    (h : ρ.effect t = some (i, c, a)) :
    ∃ l, ρ.label t = some l ∧ (ρ.state t).effect l = some (i, c, a) :=
  Option.bind_eq_some_iff.mp h

theorem follows (ρ : QueueRun I moved) :
    Follows ρ.history ρ.effect fun t i => ((ρ.state t).thread i).status where
  start i := by
    have hstart : ρ.state 0 = .fresh := ρ.start
    rw [hstart]
    rfl
  begins {t i c} hbegin := by
    have hmove := moves hbegin
    generalize ρ.state (t + 1) = s' at hmove
    cases hmove with
    | call hi => exact ⟨by rw [hi]; rfl, by rw [SharedQueue.goto_self]; rfl⟩
  returns {t i a} hreturn := by
    obtain ⟨hl, c, hi⟩ := hreturn
    have hmove := moves hl
    refine ⟨⟨c, by rw [hi]; rfl⟩, ?_⟩
    generalize ρ.state (t + 1) = s' at hmove
    cases hmove with
    | ret => rw [SharedQueue.goto_self]; rfl
    | _ hk => cases hi.symm.trans hk
  takes {t i c a} heffect := by
    obtain ⟨l, hl, heffect⟩ := effect_cases heffect
    have htakes := (moves hl).takes (SharedQueue.ok_reachable (ρ.reachable t)) heffect
    exact ⟨htakes.1, htakes.2.1⟩
  stays {t i} hbegin hreturn htake := by
    rcases ρ.next t with ⟨-, hsame⟩ | ⟨l, hl, hstep⟩
    · rw [hsame]
    · have hlock := (SharedQueue.ok_reachable (ρ.reachable t)).locking
      refine (SharedQueue.step_moves hstep).status_eq hlock (fun c heq => ?_) (fun c a heq hi => ?_)
        fun e he => ?_
      · exact hbegin c (hl.trans (congrArg some heq))
      · exact hreturn a ⟨hl.trans (congrArg some heq), c, hi⟩
      · exact htake ⟨e, Option.bind_eq_some_iff.mpr ⟨l, hl, he⟩⟩

theorem linearizes (ρ : QueueRun I moved) :
    Linearizes FifoStep ρ.history (fun t => (ρ.state t).contents) ρ.effect := by
  refine ρ.follows.linearizes ?_ ?_
  · intro t hnone
    rcases ρ.next t with ⟨-, hsame⟩ | ⟨l, hl, hstep⟩
    · rw [hsame]
    · refine (SharedQueue.step_moves hstep).contents_eq ?_
      rwa [QueueRun.effect, hl, Option.bind_some] at hnone
  · intro t i c a heffect
    obtain ⟨l, hl, heffect⟩ := QueueRun.effect_cases heffect
    exact ((QueueRun.moves hl).takes (SharedQueue.ok_reachable (ρ.reachable t)) heffect).2.2

end QueueRun

/-- In every run, of any threads and under any schedule, the calls of a
`shared_queue` are linearizable: each takes effect at one time between its call
and its return, and at these times the contents change as those of a first-in
first-out list, and the calls answer as it does. So up to any time the run is a
sequential execution of the calls that have taken effect. -/
theorem shared_queue_linearizable [DecidableEq I] {moved : T → T} (ρ : QueueRun I moved) :
    Linearizes FifoStep ρ.history (fun t => (ρ.state t).contents) ρ.effect
      ∧ ∀ t, Replays FifoStep (log ρ.effect t) [] (ρ.state t).contents := by
  have hstart : ρ.state 0 = .fresh := ρ.start
  refine ⟨ρ.linearizes, fun t => ?_⟩
  have hreplays := ρ.linearizes.replays t
  rw [hstart] at hreplays
  exact hreplays

end LockFreeRingBuf
