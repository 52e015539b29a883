import LockFreeRingBuf.SharedQueueCalls
import LockFreeRingBuf.Lib.Fairness

/-!
# Calls on the queue come to an end

Every place of a thread in its call has a `rest`, the steps that it needs
at most; its own steps lower it, and the others leave it alone. The holder
of the mutex can always go on, so the mutex is free time and again, and a
thread that is not passed over for ever then gets it. What is left is the
waiting: a notification is on its way as long as there is an element.
-/

namespace LockFreeRingBuf

open Transition

variable {I T : Type}

/-- The steps that a thread needs at most, until it returns or blocks. -/
def QueueThread.rest : QueueThread T → Nat
  | .idle | .blocked => 0
  | .wait | .ret _ _ => 1
  | .notify _ => 2
  | .unlock _ _ => 3
  | .insert _ | .pop _ _ => 4
  | .front _ => 5
  | .test _ => 6
  | .lock _ | .relock => 7

/-- A thread that is here does not wait for an element any more. -/
def QueueThread.sure : QueueThread T → Bool
  | .idle | .lock .waitAndPop | .test .waitAndPop | .wait | .blocked | .relock => false
  | _ => true

/-- A thread that is here has not popped yet, and will do so if it finds an
element. -/
def QueueThread.popping : QueueThread T → Bool
  | .lock .waitAndPop | .test .waitAndPop | .front .waitAndPop | .pop .waitAndPop _ => true
  | .relock => true
  | _ => false

/-- A thread that is here is going to notify. -/
def QueueThread.notifying : QueueThread T → Bool
  | .unlock (.push _) _ | .notify _ => true
  | _ => false

theorem QueueThread.attends_cases {p : QueueThread T} (h : p.attends = true) :
    p.notifying = true ∨ p.popping = true := by
  cases p with
  | unlock c a =>
      cases c with
      | push => exact .inl rfl
      | _ => cases h
  | notify => exact .inl rfl
  | relock => exact .inr rfl
  | test c | front c | pop c t =>
      cases c with
      | waitAndPop => exact .inr rfl
      | _ => cases h
  | _ => cases h

theorem QueueThread.sure_of_call {p : QueueThread T} {c : QueueCall T} (h : p.call = some c)
    (hc : c ≠ .waitAndPop) : p.sure = true := by
  cases p with
  | idle | wait | blocked | relock => cases h <;> exact absurd rfl hc
  | lock d | test d =>
      obtain rfl : d = c := Option.some.inj h
      cases d with
      | waitAndPop => exact absurd rfl hc
      | _ => rfl
  | _ => rfl

theorem QueueThread.sure_of_taken {p : QueueThread T} (h : p.taken ≠ []) : p.sure = true := by
  cases p with
  | unlock | ret => rfl
  | _ => exact absurd rfl h

theorem QueueCall.locked_rest (c : QueueCall T) : c.locked.rest < 7 := by
  cases c <;> simp [QueueCall.locked, QueueThread.rest]

theorem QueueCall.tested_rest (c : QueueCall T) (queue_ : List T) : (c.tested queue_).rest < 6 := by
  cases c with
  | tryAndPop | waitAndPop =>
      dsimp only [QueueCall.tested]
      split <;> simp [QueueThread.rest]
  | _ => simp [QueueCall.tested, QueueThread.rest]

theorem QueueCall.unlocked_rest (c : QueueCall T) (a : QueueAnswer T) :
    (c.unlocked a).rest < 3 := by
  cases c <;> simp [QueueCall.unlocked, QueueThread.rest]

theorem QueueCall.locked_sure {c : QueueCall T} (h : (QueueThread.lock c).sure = true) :
    c.locked.sure = true := by
  cases c with
  | waitAndPop => cases h
  | _ => rfl

theorem QueueCall.tested_sure {c : QueueCall T} (h : (QueueThread.test c).sure = true)
    (queue_ : List T) : (c.tested queue_).sure = true := by
  cases c with
  | waitAndPop => cases h
  | tryAndPop =>
      dsimp only [QueueCall.tested]
      split <;> rfl
  | _ => rfl

theorem QueueCall.unlocked_sure (c : QueueCall T) (a : QueueAnswer T) :
    (c.unlocked a).sure = true := by
  cases c <;> rfl

/-- The label is a step of thread `k` inside its call, or its return. -/
def QueueLabel.of [DecidableEq I] (k : I) : QueueLabel I T → Bool
  | .step i | .notify i _ => i = k
  | _ => false

namespace SharedQueue

variable {moved : T → T} {s s' : SharedQueue I T} {l : QueueLabel I T} {k : I}

/-- A thread that waits looks for an element, or is blocked while there is none. -/
theorem Ok.waiting_cases (hok : Ok moved s) (hcontents : s.contents ≠ []) 
    (hcall : (s.thread k).call = some .waitAndPop) (htaken : (s.thread k).taken = []) :
    (s.thread k).popping = true ∨ s.thread k = .blocked := by
  have hsound := (hok.locking.place k).sound
  cases hk : s.thread k with
  | idle | insert | notify => rw [hk] at hcall; cases hcall
  | lock c | test c | front c | pop c t =>
      rw [hk] at hcall
      obtain rfl : c = .waitAndPop := Option.some.inj hcall
      exact .inl rfl
  | relock => exact .inl rfl
  | blocked => exact .inr rfl
  | wait =>
      have hkeeps := hok.stored.holding hok.locking (i := k) (by rw [hk]; rfl)
      rw [hk] at hkeeps
      exact absurd hkeeps.2 hcontents
  | unlock c a | ret c a =>
      rw [hk] at hcall htaken hsound
      obtain rfl : c = .waitAndPop := Option.some.inj hcall
      obtain ⟨t, rfl⟩ := hsound
      cases htaken

variable [DecidableEq I]

/-- How the thread that takes a step goes on. -/
theorem own_step (P : QueueThread T → QueueThread T → Prop) {u : SharedQueue I T} {i : I}
    {p : QueueThread T} (hik : decide (i = k) = true) (hp : P (s.thread i) p) :
    P (s.thread k) ((u.goto i p).thread k) := by
  obtain rfl := of_decide_eq_true hik
  rwa [goto_self]

/-- A thread's own step brings it nearer to its return. -/
theorem Moves.rest_lt (hmove : s.Moves moved l s') (hof : l.of k = true) :
    (s'.thread k).rest < (s.thread k).rest := by
  cases hmove with
  | call | wakeup => cases hof
  | @lock i c hi =>
      refine own_step (fun q p => p.rest < q.rest) hof ?_
      rw [hi]
      exact c.locked_rest
  | @test i c hi =>
      refine own_step (fun q p => p.rest < q.rest) hof ?_
      rw [hi]
      exact c.tested_rest s.queue_
  | @unlock i c a hi =>
      refine own_step (fun q p => p.rest < q.rest) hof ?_
      rw [hi]
      exact c.unlocked_rest a
  | insert hi | front hi | pop hi | wait hi | relock hi | ret hi | notifyNone hi | notifyOne hi =>
      refine own_step (fun q p => p.rest < q.rest) hof ?_
      rw [hi]
      simp [QueueThread.rest]

/-- The steps of others leave a thread where it is, unless they wake it. -/
theorem Moves.thread_eq (hmove : s.Moves moved l s') (hlock : Locking s) (hof : l.of k = false)
    (hidle : s.thread k ≠ .idle) (hblocked : s.thread k ≠ .blocked) :
    s'.thread k = s.thread k := by
  have hne : ∀ {i : I}, decide (i = k) = false → k ≠ i := fun hik heq => by simp [heq] at hik
  cases hmove with
  | @call i c hi =>
      refine goto_of_ne fun heq => hidle ?_
      rw [heq, hi]
  | wakeup hj =>
      refine wake_thread_of_ne fun heq => hblocked ?_
      rw [heq]
      exact (hlock.place _).blocked.mpr hj
  | notifyOne hi hj =>
      rw [goto_of_ne (hne hof)]
      refine wake_thread_of_ne fun heq => hblocked ?_
      rw [heq]
      exact (hlock.place _).blocked.mpr hj
  | lock | insert | test | front | pop | wait | relock | unlock | ret | notifyNone =>
      exact goto_of_ne (hne hof)

/-- A thread that need not wait for an element any more goes on to its return. -/
theorem Moves.sure (hmove : s.Moves moved l s') (hlock : Locking s)
    (hsure : (s.thread k).sure = true) : s'.thread k = .idle ∨ (s'.thread k).sure = true := by
  cases hof : l.of k with
  | false =>
      rw [hmove.thread_eq hlock hof (fun heq => by rw [heq] at hsure; cases hsure)
        fun heq => by rw [heq] at hsure; cases hsure]
      exact .inr hsure
  | true =>
      let Goes (q p : QueueThread T) : Prop := q.sure = true → p = .idle ∨ p.sure = true
      refine (?_ : Goes (s.thread k) (s'.thread k)) hsure
      cases hmove with
      | call | wakeup => cases hof
      | lock hi =>
          refine own_step Goes hof fun hq => .inr ?_
          rw [hi] at hq
          exact QueueCall.locked_sure hq
      | test hi =>
          refine own_step Goes hof fun hq => .inr ?_
          rw [hi] at hq
          exact QueueCall.tested_sure hq _
      | unlock => exact own_step Goes hof fun _ => .inr (QueueCall.unlocked_sure _ _)
      | ret => exact own_step Goes hof fun _ => .inl rfl
      | wait hi | relock hi =>
          refine own_step Goes hof fun hq => ?_
          rw [hi] at hq
          cases hq
      | insert | pop | notifyNone | notifyOne => exact own_step Goes hof fun _ => .inr rfl
      | front hi =>
          refine own_step Goes hof fun hq => .inr ?_
          rfl

/-- A thread that looks for an element finds one, if there is any. -/
theorem Moves.popping (hmove : s.Moves moved l s') (hok : Ok moved s)
    (hpopping : (s.thread k).popping = true) (hcontents : s.contents ≠ []) :
    s.popped.length < s'.popped.length ∨ (s'.thread k).popping = true := by
  cases hof : l.of k with
  | false =>
      rw [hmove.thread_eq hok.locking hof (fun heq => by rw [heq] at hpopping; cases hpopping)
        fun heq => by rw [heq] at hpopping; cases hpopping]
      exact .inr hpopping
  | true =>
      let Goes (q p : QueueThread T) : Prop := q.popping = true → p.popping = true
      have hgoes : Goes (s.thread k) (s'.thread k) → s.popped.length < s'.popped.length
          ∨ (s'.thread k).popping = true := fun h => .inr (h hpopping)
      cases hmove with
      | call | wakeup => cases hof
      | pop => exact .inl (by simp [SharedQueue.goto])
      | @lock i c hi =>
          refine hgoes (own_step Goes hof fun hq => ?_)
          rw [hi] at hq
          cases c with
          | waitAndPop => rfl
          | _ => cases hq
      | @test i c hi =>
          have hkeeps := hok.stored.holding hok.locking (i := i) (by rw [hi]; rfl)
          rw [hi] at hkeeps
          have hqueue : s.queue_ = s.contents := hkeeps
          refine hgoes (own_step Goes hof fun hq => ?_)
          rw [hi] at hq
          cases c with
          | waitAndPop => simp [QueueCall.tested, hqueue, hcontents, QueueThread.popping]
          | _ => cases hq
      | @front i c t rest hi =>
          refine hgoes (own_step Goes hof fun hq => ?_)
          rw [hi] at hq
          cases c with
          | waitAndPop => rfl
          | _ => cases hq
      | relock => exact hgoes (own_step Goes hof fun _ => rfl)
      | insert hi | wait hi | unlock hi | ret hi | notifyNone hi | notifyOne hi =>
          refine hgoes (own_step Goes hof fun hq => ?_)
          rw [hi] at hq
          cases hq

/-- A thread that is about to notify wakes one of those blocked, if nobody else
does. -/
theorem Moves.notifying (hmove : s.Moves moved l s') (hok : Ok moved s)
    (hnotifying : (s.thread k).notifying = true) (hd : s.data_cond_ ≠ []) :
    (∃ j, (s'.thread j).popping = true)
      ∨ (s'.thread k).notifying = true ∧ s'.data_cond_ ≠ [] := by
  have hgoes : l.of k = true ∨ (s'.thread k).notifying = true := by
    cases hof : l.of k with
    | true => exact .inl rfl
    | false =>
        rw [hmove.thread_eq hok.locking hof (fun heq => by rw [heq] at hnotifying; cases hnotifying)
          fun heq => by rw [heq] at hnotifying; cases hnotifying]
        exact .inr hnotifying
  let Goes (q p : QueueThread T) : Prop := q.notifying = true → p.notifying = true
  have hown : (l.of k = true → Goes (s.thread k) (s'.thread k)) →
      (s'.thread k).notifying = true := fun h => hgoes.elim (fun hof => h hof hnotifying) id
  cases hmove with
  | @wakeup j hj => exact .inl ⟨j, by rw [wake, goto_self]; rfl⟩
  | @notifyOne i item j hi hj =>
      have hne : j ≠ i := (hok.locking.ne_of_notify hi hj).symm
      exact .inl ⟨j, by rw [goto_of_ne hne, wake, goto_self]; rfl⟩
  | notifyNone hi hnone => exact absurd hnone hd
  | @unlock i c a hi =>
      refine .inr ⟨hown fun hof => own_step Goes hof fun hq => ?_, hd⟩
      rw [hi] at hq
      cases c with
      | push => rfl
      | _ => cases hq
  | wait hi =>
      refine .inr ⟨hown fun hof => own_step Goes hof fun hq => ?_, by simp [SharedQueue.goto]⟩
      rw [hi] at hq
      cases hq
  | call hi => exact .inr ⟨hown nofun, hd⟩
  | lock hi | insert hi | test hi | front hi | pop hi | relock hi | ret hi =>
      refine .inr ⟨hown fun hof => own_step Goes hof fun hq => ?_, hd⟩
      rw [hi] at hq
      cases hq

theorem Moves.rest_le (hmove : s.Moves moved l s') (hlock : Locking s)
    (hidle : s.thread k ≠ .idle) (hblocked : s.thread k ≠ .blocked) :
    (s'.thread k).rest + (if l.of k then 1 else 0) ≤ (s.thread k).rest := by
  cases hof : l.of k with
  | false =>
      rw [hmove.thread_eq hlock hof hidle hblocked]
      simp
  | true =>
      rw [if_pos rfl]
      exact hmove.rest_lt hof

/-- The mutex stays with its holder until that one releases it. -/
theorem Moves.holder (hmove : s.Moves moved l s') (hm : s.m_ = some k) :
    s'.m_ = none ∨ s'.m_ = some k := by
  cases hmove with
  | lock _ hnone | relock _ hnone => cases hnone.symm.trans hm
  | wait | unlock => exact .inl rfl
  | _ => exact .inr hm

/-- As long as nothing is popped, what is in the queue stays there. -/
theorem Moves.contents_ne_nil (hmove : s.Moves moved l s') (hok : Ok moved s)
    (hcontents : s.contents ≠ []) :
    s.popped.length < s'.popped.length
      ∨ s'.popped.length = s.popped.length ∧ s'.contents ≠ [] := by
  cases hmove with
  | pop => exact .inl (by simp [SharedQueue.goto])
  | @insert i item hi =>
      refine .inr ⟨rfl, ?_⟩
      show (s.pushed ++ [item]).drop s.popped.length ≠ []
      rw [insert_contents hok.stored.ordered]
      simp
  | _ => exact .inr ⟨rfl, hcontents⟩

end SharedQueue

namespace QueueRun

variable [DecidableEq I] {moved : T → T} {ρ : QueueRun I moved}

/-- No thread that can time and again go on in its call is passed over for ever. -/
def Fair (ρ : QueueRun I moved) : Prop := ∀ k, ρ.StrongFair (QueueLabel.of k)

theorem enabled_of_canMove {s : SharedQueue I T} {k : I} (h : s.CanMove moved k) :
    ∃ l : QueueLabel I T, l.of k = true ∧ ((queueSystem I moved).step l s).isSome := by
  rcases h with hstep | ⟨woken, hnotify⟩
  · exact ⟨.step k, decide_eq_true rfl, hstep⟩
  · exact ⟨.notify k woken, decide_eq_true rfl, hnotify⟩

/-- The mutex is free time and again. -/
theorem released (hfair : ρ.Fair) (t : Nat) : ∃ u, t ≤ u ∧ (ρ.state u).m_ = none := by
  cases hm : (ρ.state t).m_ with
  | none => exact ⟨t, Nat.le_refl t, hm⟩
  | some k =>
      let W (n : Nat) (s : SharedQueue I T) : Prop := s.m_ = some k ∧ (s.thread k).rest = n
      have hleads : ρ.LeadsTo (fun s => ∃ n, W n s) fun s => s.m_ = none := by
        refine .of_turns (hfair k).fair ?_ ?_
        · rintro n s hs ⟨hk, -⟩
          have hok := SharedQueue.ok_reachable hs
          exact .inr (enabled_of_canMove (.inl (hok.holder_moves (hok.locking.holds_iff.mpr hk))))
        · rintro n l s s' hs ⟨hk, rfl⟩ hstep
          have hlock := (SharedQueue.ok_reachable hs).locking
          have hholds : (s.thread k).holds = true := hlock.holds_iff.mpr hk
          have hmove := SharedQueue.step_moves hstep
          refine (hmove.holder hk).imp_right fun hk' => ⟨_, ⟨hk', rfl⟩, hmove.rest_le hlock ?_ ?_⟩
          · intro heq; rw [heq] at hholds; cases hholds
          · intro heq; rw [heq] at hholds; cases hholds
      exact hleads t ⟨_, hm, rfl⟩

/-- What holds of a thread inside its call until `Q` does leads to `Q`, for the call
comes to its end otherwise. -/
theorem leadsTo_of_call (hfair : ρ.Fair) {F Q : SharedQueue I T → Prop} (k : I)
    (hcall : ∀ s, F s → s.thread k ≠ .idle ∧ s.thread k ≠ .blocked)
    (hkeep : ∀ l s s', SharedQueue.Ok moved s → F s → s.Moves moved l s' → Q s' ∨ F s') :
    ρ.LeadsTo F Q := by
  let W (n : Nat) (s : SharedQueue I T) : Prop := F s ∧ (s.thread k).rest = n
  have hleads : ρ.LeadsTo (fun s => ∃ n, W n s) Q := by
    refine .of_turns_often (E := fun s => s.m_ = none) (hfair k) (released hfair) ?_ ?_
    · rintro n s hs ⟨hF, -⟩ hm
      obtain ⟨hidle, hblocked⟩ := hcall s hF
      have hok := SharedQueue.ok_reachable hs
      exact .inr (enabled_of_canMove (hok.canMove_of_free hm hidle hblocked))
    · rintro n l s s' hs ⟨hF, rfl⟩ hstep
      obtain ⟨hidle, hblocked⟩ := hcall s hF
      have hok := SharedQueue.ok_reachable hs
      have hmove := SharedQueue.step_moves hstep
      refine (hkeep l s s' hok hF hmove).imp_right fun hF' => ?_
      exact ⟨_, ⟨hF', rfl⟩, hmove.rest_le hok.locking hidle hblocked⟩
  exact fun t hF => hleads t ⟨_, hF, rfl⟩

/-- A call that need not wait returns. -/
theorem sure_returns (hfair : ρ.Fair) (k : I) :
    ρ.LeadsTo (fun s => (s.thread k).sure = true) fun s => s.thread k = .idle := by
  refine leadsTo_of_call hfair k (fun s hsure => ?_) fun l s s' hok hsure hmove =>
    hmove.sure hok.locking hsure
  constructor
  · intro heq; rw [heq] at hsure; cases hsure
  · intro heq; rw [heq] at hsure; cases hsure

/-- `n` elements have been popped, and there are more. -/
def Filled (n : Nat) (s : SharedQueue I T) : Prop := s.popped.length = n ∧ s.contents ≠ []

theorem Filled.step {n : Nat} {l : QueueLabel I T} {s s' : SharedQueue I T} (h : Filled n s)
    (hok : SharedQueue.Ok moved s) (hmove : s.Moves moved l s') :
    n < s'.popped.length ∨ Filled n s' := by
  obtain ⟨rfl, hcontents⟩ := h
  exact hmove.contents_ne_nil hok hcontents

/-- A thread that looks for an element makes some thread pop one. -/
theorem popping_pops (hfair : ρ.Fair) (n : Nat) (k : I) :
    ρ.LeadsTo (fun s => Filled n s ∧ (s.thread k).popping = true) fun s => n < s.popped.length := by
  refine leadsTo_of_call hfair k (fun s hF => ?_) ?_
  · obtain ⟨-, hpopping⟩ := hF
    constructor
    · intro heq; rw [heq] at hpopping; cases hpopping
    · intro heq; rw [heq] at hpopping; cases hpopping
  · rintro l s s' hok ⟨hfilled, hpopping⟩ hmove
    rcases hfilled.step hok hmove with hpopped | hfilled'
    · exact .inl hpopped
    · rcases hmove.popping hok hpopping hfilled.2 with hpopped | hpopping'
      · exact .inl (by rwa [hfilled.1] at hpopped)
      · exact .inr ⟨hfilled', hpopping'⟩

/-- A thread that is about to notify makes some thread look for an element. -/
theorem notifying_wakes (hfair : ρ.Fair) (n : Nat) (k : I) :
    ρ.LeadsTo (fun s => Filled n s ∧ (s.thread k).notifying = true ∧ s.data_cond_ ≠ [])
      fun s => n < s.popped.length ∨ ∃ j, Filled n s ∧ (s.thread j).popping = true := by
  refine leadsTo_of_call hfair k (fun s hF => ?_) ?_
  · obtain ⟨-, hnotifying, -⟩ := hF
    constructor
    · intro heq; rw [heq] at hnotifying; cases hnotifying
    · intro heq; rw [heq] at hnotifying; cases hnotifying
  · rintro l s s' hok ⟨hfilled, hnotifying, hd⟩ hmove
    rcases hfilled.step hok hmove with hpopped | hfilled'
    · exact .inl (.inl hpopped)
    · rcases hmove.notifying hok hnotifying hd with ⟨j, hj⟩ | hgoes
      · exact .inl (.inr ⟨j, hfilled', hj⟩)
      · exact .inr ⟨hfilled', hgoes⟩

/-- While there are elements, a `wait_and_pop` makes some thread pop one. -/
theorem waiting_pops (hfair : ρ.Fair) (n : Nat) :
    ρ.LeadsTo (fun s => Filled n s
        ∧ ∃ k, (s.thread k).call = some .waitAndPop ∧ (s.thread k).taken = [])
      fun s => n < s.popped.length := by
  have hwake : ρ.LeadsTo (fun s => Filled n s
        ∧ ∃ k, (s.thread k).call = some .waitAndPop ∧ (s.thread k).taken = [])
      fun s => n < s.popped.length ∨ ∃ j, Filled n s ∧ (s.thread j).popping = true := by
    rintro t ⟨hfilled, k, hcall, htaken⟩
    have hok := SharedQueue.ok_reachable (ρ.reachable t)
    rcases hok.waiting_cases hfilled.2 hcall htaken with hpopping | hblocked
    · exact ⟨t, Nat.le_refl t, .inr ⟨k, hfilled, hpopping⟩⟩
    · have hd : (ρ.state t).data_cond_ ≠ [] :=
        List.ne_nil_of_mem ((hok.locking.place k).blocked.mp hblocked)
      obtain ⟨l, -, hl, hlen⟩ := hok.attended hd
      have hpos : 0 < (ρ.state t).contents.length := List.length_pos_of_ne_nil hfilled.2
      obtain ⟨j, hj⟩ := List.exists_mem_of_length_pos (Nat.lt_of_lt_of_le hpos hlen)
      rcases QueueThread.attends_cases (hl j hj) with hnotifying | hpopping
      · exact notifying_wakes hfair n j t ⟨hfilled, hnotifying, hd⟩
      · exact ⟨t, Nat.le_refl t, .inr ⟨j, hfilled, hpopping⟩⟩
  refine hwake.or_else ?_
  rintro t ⟨j, hj⟩
  exact popping_pops hfair n j t hj

end QueueRun

/-- In every run in which no thread that can time and again go on in its call is
passed over for ever: every `push`, `try_and_pop`, `empty` and `size` returns, and
so does a `wait_and_pop` that has popped; and while a `wait_and_pop` is in
progress and there are elements, another element is popped. -/
theorem shared_queue_progress [DecidableEq I] {moved : T → T} {ρ : QueueRun I moved}
    (hfair : ρ.Fair) :
    (∀ k c, c ≠ .waitAndPop →
        ρ.LeadsTo (fun s => (s.thread k).call = some c) fun s => s.thread k = .idle)
      ∧ (∀ k, ρ.LeadsTo (fun s => (s.thread k).taken ≠ []) fun s => s.thread k = .idle)
      ∧ ∀ n, ρ.LeadsTo (fun s => (s.popped.length = n ∧ s.contents ≠ [])
            ∧ ∃ k, (s.thread k).call = some .waitAndPop ∧ (s.thread k).taken = [])
          fun s => n < s.popped.length := by
  refine ⟨fun k c hc => ?_, fun k => ?_, QueueRun.waiting_pops hfair⟩
  · refine (QueueRun.sure_returns hfair k).mono (fun s _ hcall => ?_) fun _ _ h => h
    exact QueueThread.sure_of_call hcall hc
  · refine (QueueRun.sure_returns hfair k).mono (fun s _ htaken => ?_) fun _ _ h => h
    exact QueueThread.sure_of_taken htaken

/-- A blocked thread is woken by one that pushes, and both return. -/
theorem shared_queue_progress_two :
    let ρ : QueueRun Bool (id : Nat → Nat) := .replay _ [.call false .waitAndPop,
      .step false, .step false, .step false, .call true (.push 5), .step true, .step true,
      .step true, .notify true (some false), .step true, .step false, .step false, .step false,
      .step false, .step false, .step false] rfl
    (ρ.state 4).thread false = .blocked ∧ ∃ u, 5 ≤ u ∧ (ρ.state u).thread true = .idle := by
  intro ρ
  have hfair : ρ.Fair := by
    intro k
    refine Run.replay_strongFair rfl fun l hl => ?_
    cases l with
    | call | wakeup => cases hl
    | step i => cases i <;> rfl
    | notify i woken => cases i <;> cases woken <;> rfl
  obtain ⟨hreturns, -, -⟩ := shared_queue_progress hfair
  exact ⟨rfl, hreturns true (.push 5) nofun 5 rfl⟩

end LockFreeRingBuf
