import LockFreeRingBuf.ActiveSends
import LockFreeRingBuf.SharedQueueProgress

/-!
# Every callback is run, and the destructor returns

The promises of the queue hold of the object's queue, and they are chained
along the places of `run()`: a message that stands in the queue is popped,
what is popped is received, and a callback that is called comes to its
end, for it sends finitely many others. So the destructor's message is
reached as well, the thread returns, and `join` with it.
-/

namespace LockFreeRingBuf

open Transition Linearizability

variable {ι F σ : Type}

/-- A step of thread `k` inside a call on `mq_`, or its return. -/
def ActiveLabel.inCall [DecidableEq ι] (k : Option ι) : ActiveLabel ι F → Bool
  | .queue l => l.of k
  | .ret j => j = k
  | _ => false

def ActiveLabel.isThd : ActiveLabel ι F → Bool
  | .thd => true
  | _ => false

def ActiveLabel.isJoin [DecidableEq ι] (i : ι) : ActiveLabel ι F → Bool
  | .join j => j = i
  | _ => false

/-! ## Messages in flight -/

section

variable {I T : Type}

theorem QueueThread.idle_of_call {p : QueueThread T} (h : p.call = none) : p = .idle := by
  cases p with
  | idle => rfl
  | _ => cases h

/-- What a thread has pushed in the call it is in. -/
def QueueThread.delivered : QueueThread T → Option T
  | .unlock (.push item) _ | .ret (.push item) _ | .notify item => some item
  | _ => none

/-- What a thread has pushed stands among what was pushed. -/
def SharedQueue.Delivered (s : SharedQueue I T) : Prop :=
  ∀ k item, (s.thread k).delivered = some item → item ∈ s.pushed

namespace SharedQueue.Delivered

variable [DecidableEq I] {moved : T → T} {s s' : SharedQueue I T} {l : QueueLabel I T} {i : I}
  {p : QueueThread T}

theorem goes (h : s.Delivered) (hthread : s'.thread = Function.update s.thread i p)
    (hpushed : s.pushed ⊆ s'.pushed)
    (hp : ∀ item, p.delivered = some item →
      (s.thread i).delivered = some item ∨ item ∈ s'.pushed) : s'.Delivered := by
  intro k item hk
  rw [hthread] at hk
  by_cases hki : k = i
  · subst hki
    rw [Function.update_self] at hk
    exact (hp item hk).elim (fun hold => hpushed (h k item hold)) id
  · rw [Function.update_of_ne hki] at hk
    exact hpushed (h k item hk)

theorem step (h : s.Delivered) (hlock : Locking s) (hmove : s.Moves moved l s') :
    s'.Delivered := by
  cases hmove with
  | call | relock | front | wait | ret | wakeup => exact h.goes rfl (fun _ hm => hm) nofun
  | @pop i c t t' rest hi =>
      have hsound := (hlock.place i).sound
      rw [hi] at hsound
      refine h.goes rfl (fun _ hm => hm) ?_
      cases c with
      | tryAndPop | waitAndPop => nofun
      | push | empty | size => cases hsound
  | @lock i c => exact h.goes rfl (fun _ hm => hm) (by cases c <;> nofun)
  | @test i c hi =>
      refine h.goes rfl (fun _ hm => hm) ?_
      cases c with
      | tryAndPop | waitAndPop =>
          dsimp only [QueueCall.tested]
          split <;> nofun
      | _ => nofun
  | @insert i item hi =>
      refine h.goes rfl (fun _ hm => List.mem_append_left _ hm) fun item' hitem => .inr ?_
      obtain rfl := Option.some.inj hitem
      exact List.mem_append_right _ (List.mem_singleton_self _)
  | @unlock i c a hi =>
      refine h.goes rfl (fun _ hm => hm) fun item hitem => .inl ?_
      rw [hi]
      cases c with
      | push => exact hitem
      | _ => cases hitem
  | @notifyNone i item hi =>
      refine h.goes rfl (fun _ hm => hm) fun item' hitem => .inl ?_
      rw [hi]
      exact hitem
  | @notifyOne i item j hi hj =>
      have hwake : (s.wake j).Delivered := h.goes rfl (fun _ hm => hm) nofun
      refine hwake.goes rfl (fun _ hm => hm) fun item' hitem => .inr ?_
      obtain rfl := Option.some.inj hitem
      exact h i _ (by rw [hi]; rfl)

end SharedQueue.Delivered

end

namespace Active

/-- How many messages have been dealt with. -/
def completed (s : Active ι F σ) : Nat := s.ran.length + (doneMessage (F := F) s.done_).length

variable {cb : Callbacks F σ} {s s' : Active ι F σ} {env : σ} {n : Nat}

theorem Ok.popped_length (h : Ok cb env s) :
    s.mq_.popped.length
      = s.completed + (s.thd_.holding ++ (s.mq_.thread none).taken).length := by
  rw [h.ran.popped, completed]
  simp only [List.length_append, List.length_map]
  omega

/-- `n` messages have been dealt with, and there is another one. -/
structure Behind (n : Nat) (s : Active ι F σ) : Prop where
  completed : s.completed = n
  pushed : n < s.mq_.pushed.length
  running : s.done_ = false

variable [DecidableEq ι] {l : ActiveLabel ι F}

/-- A callback that is called comes to its end, or the thread sends what it has to
send on its behalf. -/
theorem Moves.calling {m : Message F} {todo : List F} (hmove : s.Moves cb l s')
    (h : s.thd_ = .calling m todo) (hdone : s.done_ = false) :
    s.completed < s'.completed
      ∨ s'.completed = s.completed ∧ ∃ todo', s'.thd_ = .calling m todo'
          ∧ todo'.length + (if l.isThd then 1 else 0) ≤ todo.length := by
  cases hmove with
  | stop hthd | wait hthd => cases h.symm.trans hthd
  | received _ hthd => cases h.symm.trans hthd
  | resend hthd =>
      obtain ⟨rfl, rfl⟩ := ActiveThread.calling.inj (h.symm.trans hthd)
      exact .inr ⟨rfl, _, rfl, by simp [ActiveLabel.isThd]⟩
  | run hthd => exact .inl (by simp [completed])
  | setDone => exact .inl (by simp [completed, doneMessage, hdone])
  | _ => exact .inr ⟨rfl, todo, h, by simp [ActiveLabel.isThd]⟩

/-- The thread goes on to pop. -/
theorem Moves.testing (hmove : s.Moves cb l s') (h : s.thd_ = .test) (hdone : s.done_ = false) :
    s'.thd_ = .popping ∨ s'.thd_ = .test ∧ s'.done_ = false ∧ l.isThd = false := by
  cases hmove with
  | stop _ hdone' => cases hdone.symm.trans hdone'
  | wait => exact .inl rfl
  | resend hthd | run hthd | setDone hthd => cases h.symm.trans hthd
  | received _ hthd => cases h.symm.trans hthd
  | _ => exact .inr ⟨h, hdone, rfl⟩

/-- The thread goes on to return. -/
theorem Moves.stopping (hmove : s.Moves cb l s') (h : s.thd_ = .test) (hdone : s.done_ = true) :
    s'.thd_ = .returned ∨ (s'.thd_ = .test ∧ s'.done_ = true) ∧ l.isThd = false := by
  cases hmove with
  | stop => exact .inl rfl
  | wait _ hdone' => cases hdone.symm.trans hdone'
  | resend hthd | run hthd | setDone hthd => cases h.symm.trans hthd
  | received _ hthd => cases h.symm.trans hthd
  | _ => exact .inr ⟨⟨h, hdone⟩, rfl⟩

theorem Moves.behind (hmove : s.Moves cb l s') (h : Behind n s) :
    n < s'.completed ∨ Behind n s' := by
  obtain ⟨rfl, hpushed, hrunning⟩ := h
  have hgrows : s.mq_.pushed.length ≤ s'.mq_.pushed.length := by
    rcases hmove.onQueue with ⟨-, heq⟩ | ⟨l', -, hq⟩
    · rw [heq]
    · exact (SharedQueue.step_moves hq).pushed_grows.length_le
  cases hmove with
  | run => exact .inl (by simp [completed])
  | setDone => exact .inl (by simp [completed, doneMessage, hrunning])
  | _ => exact .inr ⟨rfl, Nat.lt_of_lt_of_le hpushed hgrows, hrunning⟩

/-- The object's thread stays outside a call on `mq_` until it takes a step. -/
theorem Moves.stays_idle (hmove : s.Moves cb l s') (hlock : s.mq_.Locking)
    (hidle : s.mq_.thread none = .idle) (hl : l.isThd = false) : s'.mq_.thread none = .idle := by
  have hother : ∀ (i : ι) (p : QueueThread (Message F)),
      (s.mq_.goto (some i) p).thread none = .idle := by
    intro i p
    rw [SharedQueue.goto_of_ne (Option.some_ne_none i).symm, hidle]
  cases hmove with
  | join => exact hidle
  | stop | wait | resend | run | setDone => cases hl
  | send _ hq | isActive _ hq | destroy _ hq =>
      obtain ⟨-, rfl⟩ := SharedQueue.begins hq
      exact hother _ _
  | queue hinside hq =>
      have hcall := ((SharedQueue.step_moves hq).inside hlock hinside).1 none
      rw [hidle] at hcall
      exact QueueThread.idle_of_call hcall
  | received hret | resent hret => cases hidle.symm.trans hret
  | sentDone hret _ hq | answered hret _ hq | sent hret _ _ hq =>
      obtain rfl := SharedQueue.returns hret hq
      exact hother _ _

theorem Moves.completed_le (hmove : s.Moves cb l s') : s.completed ≤ s'.completed := by
  cases hmove with
  | run => simp [completed]
  | setDone =>
      show s.ran.length + _ ≤ s.ran.length + _
      cases s.done_ <;> simp [doneMessage]
  | _ => exact Nat.le_refl _

theorem Moves.popped_le (hmove : s.Moves cb l s') :
    s.mq_.popped.length ≤ s'.mq_.popped.length := by
  rcases hmove.onQueue with ⟨-, heq⟩ | ⟨l', -, hq⟩
  · rw [heq]
  · exact (SharedQueue.step_moves hq).popped_le

/-- Every thread's message has been pushed, and so has the destructor's when that is
past its call of `send`. -/
structure Told (s : Active ι F σ) : Prop where
  delivered : s.mq_.Delivered
  told : s.destructor = .absent ∨ (∃ i, s.destructor = .sending i) ∨ .setDone ∈ s.mq_.pushed

theorem Told.step (h : Told s) (hok : Ok cb env s) (hmove : s.Moves cb l s') : Told s' := by
  have hpushed : s.mq_.pushed ⊆ s'.mq_.pushed := by
    rcases hmove.onQueue with ⟨-, heq⟩ | ⟨l', -, hq⟩
    · rw [heq]
      exact List.Subset.refl _
    · exact (SharedQueue.step_moves hq).pushed_grows.subset
  refine ⟨?_, ?_⟩
  · rcases hmove.onQueue with ⟨-, heq⟩ | ⟨l', -, hq⟩
    · rw [heq]
      exact h.delivered
    · exact h.delivered.step hok.queue.locking (SharedQueue.step_moves hq)
  · cases hmove with
    | @destroy i => exact .inr (.inl ⟨i, rfl⟩)
    | join _ hjoining =>
        rcases h.told with habsent | ⟨j, hsending⟩ | hmem
        · cases habsent.symm.trans hjoining
        · cases hsending.symm.trans hjoining
        · exact .inr (.inr hmem)
    | @sentDone i c a q hret hsending hq =>
        have hcall := hok.roles.sending i hsending
        rw [calls, hret] at hcall
        obtain rfl : c = .push .setDone := Option.some.inj hcall
        exact .inr (.inr (hpushed (h.delivered (some i) .setDone (by rw [hret]; rfl))))
    | _ => exact h.told.imp_right fun h => h.imp_right fun hmem => hpushed hmem

/-- A thread that can go on in its call on `mq_` can do so as part of the object. -/
theorem enabled_of_queue {k : Option ι} {l' : QueueLabel (Option ι) (Message F)}
    (hof : l'.of k = true) (h : (SharedQueue.step cb.moved l' s.mq_).isSome) :
    ∃ l : ActiveLabel ι F, l.inCall k = true ∧ (Active.step cb l s).isSome := by
  by_cases hinside : l'.inside s.mq_ = true
  · refine ⟨.queue l', hof, ?_⟩
    simpa [Active.step, hinside, onQueue] using h
  · cases l' with
    | call | wakeup => cases hof
    | notify => exact absurd rfl hinside
    | step i =>
        refine ⟨.ret i, hof, ?_⟩
        cases hi : s.mq_.thread i with
        | ret c a => simpa [Active.step, hi, onQueue] using h
        | _ => simp [QueueLabel.inside, hi] at hinside

/-- Outside its calls the thread can take a step. -/
theorem thd_enabled (h : s.thd_ = .test ∨ ∃ m todo, s.thd_ = .calling m todo)
    (hidle : s.mq_.thread none = .idle) : (Active.step cb .thd s).isSome := by
  rcases h with hthd | ⟨m, todo, hthd⟩
  · cases hdone : s.done_ <;>
      simp [Active.step, thdStep, hthd, hdone, onQueue, SharedQueue.step, hidle]
  · cases m with
    | setDone => simp [Active.step, thdStep, hthd]
    | user f =>
        cases todo <;> simp [Active.step, thdStep, hthd, onQueue, SharedQueue.step, hidle]

end Active

namespace ActiveRun

open Active

variable {cb : Callbacks F σ} {env : σ} {n : Nat}

/-- The next message has been popped. -/
structure Holding (n : Nat) (s : Active ι F σ) : Prop where
  behind : Behind n s
  popped : n < s.mq_.popped.length

/-- The thread has the message in its hands, or is about to get it. -/
theorem Holding.cases {s : Active ι F σ} (h : Holding n s) (hok : Ok cb env s) :
    (∃ m todo, s.thd_ = .calling m todo)
      ∨ s.thd_ = .popping ∧ (s.mq_.thread none).taken ≠ [] := by
  have hheld : (s.thd_.holding ++ (s.mq_.thread none).taken) ≠ [] := by
    intro hnone
    have hlen := hok.popped_length
    rw [hnone, h.behind.completed, List.length_nil, Nat.add_zero] at hlen
    exact Nat.lt_irrefl _ (hlen ▸ h.popped)
  have hcalls := hok.roles.thd
  cases hthd : s.thd_ with
  | calling m todo => exact .inl ⟨m, todo, rfl⟩
  | popping =>
      rw [hthd] at hheld
      exact .inr ⟨rfl, hheld⟩
  | test | returned =>
      rw [hthd] at hheld hcalls
      rw [QueueThread.idle_of_call hcalls] at hheld
      exact absurd rfl hheld

variable [DecidableEq ι] {ρ : ActiveRun ι cb env}

/-- No thread that can time and again go on in its call on `mq_` is passed over for
ever, and neither are `run()` between its calls and `join()`. -/
structure Fair (ρ : ActiveRun ι cb env) : Prop where
  calls : ∀ k, ρ.StrongFair (ActiveLabel.inCall k)
  thd : Run.Fair ρ ActiveLabel.isThd
  join : ∀ i, Run.Fair ρ (ActiveLabel.isJoin i)

theorem Fair.queue (h : ρ.Fair) : ρ.queue.Fair := by
  intro k t
  obtain ⟨u, htu, htaken | hdisabled⟩ := h.calls k t
  · refine ⟨u, htu, .inl ?_⟩
    show ((ρ.label u).bind _).any _ = true
    cases hl : ρ.label u with
    | none => rw [hl] at htaken; cases htaken
    | some l =>
        rw [hl] at htaken
        cases l with
        | queue | ret => exact htaken
        | _ => cases htaken
  · refine ⟨u, htu, .inr fun v huv l' hof => ?_⟩
    cases hstep : SharedQueue.step cb.moved l' (ρ.state v).mq_ with
    | none => exact hstep
    | some q =>
        obtain ⟨l, hl, hsome⟩ := enabled_of_queue (s := ρ.state v) hof (by rw [hstep]; rfl)
        have hnone := hdisabled v huv l hl
        rw [show Active.step cb l (ρ.state v) = none from hnone] at hsome
        cases hsome

/-- What has been dealt with stays so, and else the object stays behind. -/
theorem behind_kept (l : ActiveLabel ι F) (s s' : Active ι F σ)
    (h : n < s.completed ∨ Behind n s) (hstep : Active.step cb l s = some s') :
    n < s'.completed ∨ Behind n s' := by
  have hmove := step_moves hstep
  rcases h with hlt | hbehind
  · exact .inl (Nat.lt_of_lt_of_le hlt hmove.completed_le)
  · exact hmove.behind hbehind

/-- The thread begins to pop. -/
theorem testing_pops (hfair : ρ.Fair) :
    ρ.LeadsTo (fun s => s.thd_ = .test ∧ s.done_ = false) fun s => s.thd_ = .popping := by
  refine .of_turn hfair.thd ?_ ?_
  · rintro s hs ⟨hthd, -⟩
    have hcalls := (ok_reachable hs).roles.thd
    rw [hthd] at hcalls
    exact ⟨.thd, rfl, thd_enabled (.inl hthd) (QueueThread.idle_of_call hcalls)⟩
  · rintro l s s' - ⟨hthd, hdone⟩ hstep
    rcases (step_moves hstep).testing hthd hdone with hpopping | ⟨hthd', hdone', hl⟩
    · exact .inl hpopping
    · exact .inr ⟨⟨hthd', hdone'⟩, hl⟩

/-- A callback is being called, and has to send `r` others at most. -/
structure Sending (n r : Nat) (s : Active ι F σ) : Prop where
  behind : Behind n s
  calling : ∃ m todo, s.thd_ = .calling m todo ∧ todo.length ≤ r

theorem Sending.step {r : Nat} {l : ActiveLabel ι F} {s s' : Active ι F σ} (h : Sending n r s)
    (hmove : s.Moves cb l s') :
    n < s'.completed ∨ ∃ r', Sending n r' s' ∧ r' + (if l.isThd then 1 else 0) ≤ r := by
  obtain ⟨hbehind, m, todo, hthd, hr⟩ := h
  rcases hmove.behind hbehind with hlt | hbehind'
  · exact .inl hlt
  · rcases hmove.calling hthd hbehind.running with hlt | ⟨-, todo', hthd', hle⟩
    · rw [hbehind.completed] at hlt
      exact .inl hlt
    · exact .inr ⟨todo'.length, ⟨hbehind', m, todo', hthd', Nat.le_refl _⟩, Nat.le_trans hle hr⟩

theorem sending_kept {r : Nat} (l : ActiveLabel ι F) (s s' : Active ι F σ)
    (h : n < s.completed ∨ Sending n r s) (hstep : Active.step cb l s = some s') :
    n < s'.completed ∨ Sending n r s' := by
  have hmove := step_moves hstep
  rcases h with hlt | hsending
  · exact .inl (Nat.lt_of_lt_of_le hlt hmove.completed_le)
  · refine (hsending.step hmove).imp_right ?_
    rintro ⟨r', ⟨hbehind, m, todo, hthd, htodo⟩, hle⟩
    exact ⟨hbehind, m, todo, hthd, by omega⟩

/-- A promise of the queue, for the object. -/
theorem leadsTo_of_queue {P Q : SharedQueue (Option ι) (Message F) → Prop}
    (h : ρ.queue.LeadsTo P Q) {K : Active ι F σ → Prop}
    (hkeep : ∀ l s s', K s → Active.step cb l s = some s' → K s') :
    ρ.LeadsTo (fun s => P s.mq_ ∧ K s) fun s => Q s.mq_ ∧ K s :=
  Run.LeadsTo.and_kept (P := fun s => P s.mq_) (Q := fun s => Q s.mq_) h
    fun l s s' _ hK hstep => hkeep l s s' hK hstep

/-- The thread returns from what it sends for the callback. -/
theorem sending_idle (hfair : ρ.Fair) (r : Nat) :
    ρ.LeadsTo (Sending n r) fun s =>
      s.mq_.thread none = .idle ∧ (n < s.completed ∨ Sending n r s) := by
  intro t hsending
  have hcalls := (ρ.ok t).roles.thd
  obtain ⟨m, todo, hthd, -⟩ := hsending.calling
  by_cases hidle : (ρ.state t).mq_.thread none = .idle
  · exact ⟨t, Nat.le_refl t, hidle, .inr hsending⟩
  · refine leadsTo_of_queue (QueueRun.sure_returns hfair.queue none) sending_kept t
      ⟨?_, .inr hsending⟩
    show ((ρ.state t).mq_.thread none).sure = true
    cases hc : (ρ.state t).calls none with
    | none => exact absurd (QueueThread.idle_of_call hc) hidle
    | some c =>
        refine QueueThread.sure_of_call hc ?_
        rintro rfl
        rw [hthd, hc] at hcalls
        cases m with
        | setDone => cases hcalls
        | user f =>
            obtain ⟨g, hg⟩ := hcalls _ rfl
            cases hg

/-- A callback that is being called comes to its end. -/
theorem sending_completes (hfair : ρ.Fair) (r : Nat) :
    ρ.LeadsTo (Sending n r) fun s => n < s.completed := by
  induction r using Nat.strongRecOn with
  | ind r ih =>
      -- One step of the thread, once it is back from its call.
      have hturn : ρ.LeadsTo (fun s => s.mq_.thread none = .idle ∧ Sending n r s)
          fun s => n < s.completed ∨ ∃ r', r' < r ∧ Sending n r' s := by
        refine .of_turn hfair.thd ?_ ?_
        · rintro s - ⟨hidle, -, m, todo, hthd, -⟩
          exact ⟨.thd, rfl, thd_enabled (.inr ⟨m, todo, hthd⟩) hidle⟩
        · rintro l s s' hs ⟨hidle, hsending⟩ hstep
          have hmove := step_moves hstep
          rcases hsending.step hmove with hlt | ⟨r', hsending', hle⟩
          · exact .inl (.inl hlt)
          · cases hl : l.isThd with
            | true =>
                rw [hl, if_pos rfl] at hle
                exact .inl (.inr ⟨r', hle, hsending'⟩)
            | false =>
                have hidle' := hmove.stays_idle (ok_reachable hs).queue.locking hidle hl
                refine .inr ⟨⟨hidle', ?_⟩, rfl⟩
                obtain ⟨hbehind, m, todo, hthd, htodo⟩ := hsending'
                exact ⟨hbehind, m, todo, hthd, by omega⟩
      have hidle : ρ.LeadsTo (Sending n r) fun s => n < s.completed
          ∨ s.mq_.thread none = .idle ∧ Sending n r s :=
        (sending_idle hfair r).mono (fun _ _ h => h) fun s _ h => h.2.imp_right fun h' => ⟨h.1, h'⟩
      refine hidle.or_else ?_
      refine hturn.or_else ?_
      rintro t ⟨r', hlt, hsending⟩
      exact ih r' hlt t hsending

theorem holding_kept (l : ActiveLabel ι F) (s s' : Active ι F σ)
    (h : n < s.completed ∨ Holding n s) (hstep : Active.step cb l s = some s') :
    n < s'.completed ∨ Holding n s' := by
  rcases h with hlt | ⟨hbehind, hpopped⟩
  · exact (behind_kept l s s' (.inl hlt) hstep).imp_right fun hbehind =>
      absurd hbehind.completed
        (Nat.ne_of_gt (Nat.lt_of_lt_of_le hlt (step_moves hstep).completed_le))
  · refine (behind_kept l s s' (.inr hbehind) hstep).imp_right fun hbehind' => ?_
    exact ⟨hbehind', Nat.lt_of_lt_of_le hpopped (step_moves hstep).popped_le⟩

/-- What has been popped is dealt with. -/
theorem holding_completes (hfair : ρ.Fair) :
    ρ.LeadsTo (Holding n) fun s => n < s.completed := by
  have hcalling : ∀ {t}, Holding n (ρ.state t) → (∃ m todo, (ρ.state t).thd_ = .calling m todo) →
      ∃ u, t ≤ u ∧ n < (ρ.state u).completed := by
    rintro t h ⟨m, todo, hthd⟩
    exact sending_completes hfair todo.length t ⟨h.behind, m, todo, hthd, Nat.le_refl _⟩
  intro t h
  rcases h.cases (ρ.ok t) with hthd | ⟨hthd, htaken⟩
  · exact hcalling h hthd
  · obtain ⟨u, htu, hidle, hlt | hu⟩ :=
      leadsTo_of_queue (QueueRun.sure_returns hfair.queue none) holding_kept t
        ⟨QueueThread.sure_of_taken htaken, .inr h⟩
    · exact ⟨u, htu, hlt⟩
    · rcases hu.cases (ρ.ok u) with hthd' | ⟨-, htaken'⟩
      · obtain ⟨v, huv, hlt⟩ := hcalling hu hthd'
        exact ⟨v, Nat.le_trans htu huv, hlt⟩
      · rw [show (ρ.state u).mq_.thread none = .idle from hidle] at htaken'
        exact absurd rfl htaken'

/-- The thread pops the next message, and deals with it. -/
theorem popping_completes (hfair : ρ.Fair) :
    ρ.LeadsTo (fun s => s.thd_ = .popping ∧ Behind n s) fun s => n < s.completed := by
  rintro t ⟨hthd, hbehind⟩
  have hok := ρ.ok t
  have hlen := hok.popped_length
  rw [hthd, hbehind.completed] at hlen
  by_cases htaken : ((ρ.state t).mq_.thread none).taken = []
  · have hpopped : (ρ.state t).mq_.popped.length = n := by
      rw [hlen, htaken]
      rfl
    have hfilled : QueueRun.Filled n (ρ.state t).mq_ := by
      refine ⟨hpopped, fun hnone => ?_⟩
      have hsplit := SharedQueue.popped_append_contents hok.queue.stored.ordered
      rw [hnone, List.append_nil] at hsplit
      have hpushed := hbehind.pushed
      rw [← hsplit, hpopped] at hpushed
      exact Nat.lt_irrefl _ hpushed
    have hcall := hok.roles.thd
    rw [hthd] at hcall
    obtain ⟨u, htu, hlt, hu⟩ :=
      leadsTo_of_queue (QueueRun.waiting_pops hfair.queue n) behind_kept t
        ⟨⟨hfilled, none, hcall, htaken⟩, .inr hbehind⟩
    rcases hu with hcompleted | hbehind'
    · exact ⟨u, htu, hcompleted⟩
    · obtain ⟨v, huv, hcompleted⟩ := holding_completes hfair u ⟨hbehind', hlt⟩
      exact ⟨v, Nat.le_trans htu huv, hcompleted⟩
  · refine holding_completes hfair t ⟨hbehind, ?_⟩
    have hpos := List.length_pos_of_ne_nil htaken
    rw [hlen]
    simp only [ActiveThread.holding, List.nil_append]
    omega

/-- The next message is dealt with. -/
theorem behind_completes (hfair : ρ.Fair) :
    ρ.LeadsTo (Behind n) fun s => n < s.completed := by
  intro t hbehind
  cases hthd : (ρ.state t).thd_ with
  | test =>
      obtain ⟨u, htu, hpopping, hu⟩ :=
        (testing_pops hfair).and_kept (fun l s s' _ => behind_kept l s s') t
          ⟨⟨hthd, hbehind.running⟩, .inr hbehind⟩
      rcases hu with hcompleted | hbehind'
      · exact ⟨u, htu, hcompleted⟩
      · obtain ⟨v, huv, hcompleted⟩ := popping_completes hfair u ⟨hpopping, hbehind'⟩
        exact ⟨v, Nat.le_trans htu huv, hcompleted⟩
  | popping => exact popping_completes hfair t ⟨hthd, hbehind⟩
  | calling m todo =>
      exact sending_completes hfair todo.length t ⟨hbehind, m, todo, hthd, Nat.le_refl _⟩
  | returned => cases hbehind.running.symm.trans ((ρ.ok t).roles.returned hthd)

/-- Every message is dealt with, unless the thread is stopped before. -/
theorem message_completes (hfair : ρ.Fair) (n : Nat) :
    ρ.LeadsTo (fun s => n < s.mq_.pushed.length) fun s => n < s.completed ∨ s.done_ = true := by
  refine .of_rank (fun s => n - s.completed) fun r t ⟨hpushed, hr⟩ => ?_
  by_cases hlt : n < (ρ.state t).completed
  · exact ⟨t, Nat.le_refl t, .inl (.inl hlt)⟩
  · cases hdone : (ρ.state t).done_ with
    | true => exact ⟨t, Nat.le_refl t, .inl (.inr hdone)⟩
    | false =>
        obtain ⟨u, htu, hcompleted⟩ := behind_completes hfair t
          ⟨rfl, Nat.lt_of_le_of_lt (Nat.not_lt.mp hlt) hpushed, hdone⟩
        by_cases hlt' : n < (ρ.state u).completed
        · exact ⟨u, htu, .inl (.inl hlt')⟩
        · have hpushed' := (ρ.pushed_grows htu).length_le
          exact ⟨u, htu, .inr ⟨by omega, by omega⟩⟩

/-- A callback pushed before the destructor's message is run before it. -/
theorem callback_runs (hfair : ρ.Fair) {k t : Nat} {f : F}
    (hplace : (ρ.state t).mq_.pushed[k]? = some (.user f))
    (hnone : .setDone ∉ (ρ.state t).mq_.pushed) :
    ∃ u, t ≤ u ∧ (ρ.state u).ran[k]? = some f := by
  have hk : k < (ρ.state t).mq_.pushed.length := (List.getElem?_eq_some_iff.mp hplace).1
  obtain ⟨u, htu, hreached⟩ := message_completes hfair k t hk
  have hok := ρ.ok u
  obtain ⟨later, hlater⟩ := ρ.pushed_grows htu
  have hran : k < (ρ.state u).ran.length := by
    cases hdone : (ρ.state u).done_ with
    | false =>
        rcases hreached with hlt | htrue
        · rw [completed, hdone] at hlt
          exact hlt
        · cases hdone.symm.trans htrue
    | true =>
        -- The destructor's message comes next after the callbacks that have been run.
        refine Nat.not_le.mp fun hle => hnone ?_
        have hordered := hok.queue.stored.ordered
        rw [hok.ran.popped, hdone, List.append_assoc, List.append_assoc] at hordered
        obtain ⟨rest, hrest⟩ := hordered
        have hmem : (ρ.state u).mq_.pushed[(ρ.state u).ran.length]? = some .setDone := by
          rw [← hrest, List.append_assoc, List.getElem?_append_right (by simp)]
          simp [doneMessage]
        rw [← hlater, List.getElem?_append_left (Nat.lt_of_le_of_lt hle hk)] at hmem
        exact List.mem_of_getElem? hmem
  obtain ⟨rest, hrest⟩ := hok.ran_pushed
  have hrun : ((ρ.state u).ran.map Message.user)[k]? = some (.user f) := by
    rw [← hplace, ← List.getElem?_append_left hk, hlater, ← hrest,
      List.getElem?_append_left (by rwa [List.length_map])]
  exact ⟨u, htu, by simpa using hrun⟩

/-- An execution whose destructor has returned, with no call left in progress, has
been fair. -/
theorem fair_of_finished {ls : List (ActiveLabel ι F)}
    (hfinished : ((activeSystem ι cb env).replay ls (.create env) ls.length).destructor = .finished)
    (hidle : ∀ k, ((activeSystem ι cb env).replay ls (.create env) ls.length).mq_.thread k = .idle) :
    ActiveRun.Fair (.replay (activeSystem ι cb env) ls rfl) := by
  have hreturned := (ok (.replay (activeSystem ι cb env) ls rfl) ls.length).roles.joined hfinished
  have hreturned : ((activeSystem ι cb env).replay ls (.create env) ls.length).thd_ = .returned :=
    hreturned
  generalize hend : (activeSystem ι cb env).replay ls (.create env) ls.length = s at *
  refine ⟨fun k => ?_, Run.StrongFair.fair ?_, fun i => Run.StrongFair.fair ?_⟩
  · refine Run.replay_strongFair rfl fun l hl => ?_
    rw [hend]
    show Active.step cb l s = none
    cases l with
    | queue l' =>
        cases l' with
        | call | wakeup => cases hl
        | step j =>
            simp [Active.step, onQueue, SharedQueue.step, SharedQueue.threadStep, hidle j]
        | notify j woken => simp [Active.step, onQueue, SharedQueue.step, hidle j]
    | ret j => simp [Active.step, hidle j]
    | _ => cases hl
  · refine Run.replay_strongFair rfl fun l hl => ?_
    rw [hend]
    show Active.step cb l s = none
    cases l with
    | thd => simp [Active.step, thdStep, hreturned]
    | _ => cases hl
  · refine Run.replay_strongFair rfl fun l hl => ?_
    rw [hend]
    show Active.step cb l s = none
    cases l with
    | join j => simp [Active.step, hreturned, hfinished]
    | _ => cases hl

/-! ## The destructor -/

theorem told (ρ : ActiveRun ι cb env) (t : Nat) : Told (ρ.state t) := by
  refine (ρ.reachable t).invariant (I := Told) ?_ ?_
  · rintro s rfl
    exact ⟨nofun, .inl rfl⟩
  · exact fun l s s' hs h hstep => h.step (ok_reachable hs) (step_moves hstep)

/-- The destructor of client `i` has been called, and its message sent. -/
def Joining (i : ι) (s : Active ι F σ) : Prop :=
  s.destructor = .joining i ∨ s.destructor = .finished

theorem joining_kept (i : ι) (l : ActiveLabel ι F) (s s' : Active ι F σ) (h : Joining i s)
    (hstep : Active.step cb l s = some s') : Joining i s' := by
  cases step_moves hstep with
  | destroy habsent => rcases h with h | h <;> cases habsent.symm.trans h
  | join => exact .inr rfl
  | sentDone _ hsending => rcases h with h | h <;> cases hsending.symm.trans h
  | _ => exact h

theorem sending_joins (hfair : ρ.Fair) (i : ι) :
    ρ.LeadsTo (fun s => s.destructor = .sending i) (Joining i) := by
  intro t hsending
  have hcall := (ρ.ok t).roles.sending i hsending
  have hkeep : ∀ l (s s' : Active ι F σ), s.destructor = .sending i ∨ Joining i s →
      Active.step cb l s = some s' → s'.destructor = .sending i ∨ Joining i s' := by
    rintro l s s' (h | h) hstep
    · cases step_moves hstep with
      | destroy habsent => cases habsent.symm.trans h
      | join _ hjoining => cases hjoining.symm.trans h
      | sentDone _ hsending' =>
          obtain rfl := Destructor.sending.inj (h.symm.trans hsending')
          exact .inr (.inl rfl)
      | _ => exact .inl h
    · exact .inr (joining_kept i l s s' h hstep)
  obtain ⟨u, htu, hidle, hu⟩ :=
    leadsTo_of_queue (QueueRun.sure_returns hfair.queue (some i)) hkeep t
      ⟨QueueThread.sure_of_call hcall nofun, .inl hsending⟩
  exact ⟨u, htu, hu.resolve_left ((ρ.ok u).roles.not_sending hidle)⟩

/-- The destructor's message is dealt with. -/
theorem joining_stops (hfair : ρ.Fair) (i : ι) :
    ρ.LeadsTo (Joining i) fun s => s.done_ = true := by
  intro t hjoining
  have hmem : .setDone ∈ (ρ.state t).mq_.pushed := by
    rcases (ρ.told t).told with habsent | ⟨j, hsending⟩ | hmem
    · rcases hjoining with h | h <;> cases habsent.symm.trans h
    · rcases hjoining with h | h <;> cases hsending.symm.trans h
    · exact hmem
  obtain ⟨n, hn, hplace⟩ := List.mem_iff_getElem.mp hmem
  obtain ⟨u, htu, hlt | hdone⟩ := message_completes hfair n t hn
  · refine ⟨u, htu, ?_⟩
    cases hdone : (ρ.state u).done_ with
    | true => exact hdone
    | false =>
        -- Then this message would be a callback that has been run.
        have hran : n < (ρ.state u).ran.length := by
          rw [completed, hdone] at hlt
          exact hlt
        have hcallback := (ρ.ok u).ran_pushed.getElem (by rwa [List.length_map])
        rw [← (ρ.pushed_grows htu).getElem hn, hplace, List.getElem_map] at hcallback
        cases hcallback
  · exact ⟨u, htu, hdone⟩

theorem stopped_returns (hfair : ρ.Fair) :
    ρ.LeadsTo (fun s => s.done_ = true) fun s => s.thd_ = .returned := by
  have hturn : ρ.LeadsTo (fun s => s.thd_ = .test ∧ s.done_ = true)
      fun s => s.thd_ = .returned := by
    refine .of_turn hfair.thd ?_ ?_
    · rintro s hs ⟨hthd, -⟩
      have hcalls := (ok_reachable hs).roles.thd
      rw [hthd] at hcalls
      exact ⟨.thd, rfl, thd_enabled (.inl hthd) (QueueThread.idle_of_call hcalls)⟩
    · rintro l s s' - ⟨hthd, hdone⟩ hstep
      exact (step_moves hstep).stopping hthd hdone
  intro t hdone
  rcases (ρ.ok t).roles.stopping hdone with hthd | hthd
  · exact hturn t ⟨hthd, hdone⟩
  · exact ⟨t, Nat.le_refl t, hthd⟩

theorem returned_joins (hfair : ρ.Fair) (i : ι) :
    ρ.LeadsTo (fun s => s.thd_ = .returned ∧ Joining i s) fun s => s.destructor = .finished := by
  have hturn : ρ.LeadsTo (fun s => s.thd_ = .returned ∧ s.destructor = .joining i)
      fun s => s.destructor = .finished := by
    refine .of_turn (hfair.join i) ?_ ?_
    · rintro s - ⟨hthd, hjoining⟩
      refine ⟨.join i, decide_eq_true rfl, ?_⟩
      show (Active.step cb (.join i) s).isSome
      simp [Active.step, hthd, hjoining]
    · rintro l s s' - ⟨hthd, hjoining⟩ hstep
      have hmove := step_moves hstep
      have hthd' := (hmove.returned hthd).1
      cases hmove with
      | destroy habsent => cases habsent.symm.trans hjoining
      | join => exact .inl rfl
      | sentDone _ hsending => cases hsending.symm.trans hjoining
      | _ => exact .inr ⟨⟨hthd', hjoining⟩, rfl⟩
  rintro t ⟨hthd, hjoining | hfinished⟩
  · exact hturn t ⟨hthd, hjoining⟩
  · exact ⟨t, Nat.le_refl t, hfinished⟩

theorem destructor_finishes (hfair : ρ.Fair) (i : ι) :
    ρ.LeadsTo (fun s => s.destructor = .sending i) fun s => s.destructor = .finished := by
  have hkeep : ∀ l s s', (activeSystem ι cb env).Reachable s → Joining i s →
      Active.step cb l s = some s' → Joining i s' := fun l s s' _ => joining_kept i l s s'
  have hstops : ρ.LeadsTo (fun s => Joining i s ∧ Joining i s)
      fun s => s.thd_ = .returned ∧ Joining i s :=
    Run.LeadsTo.and_kept ((joining_stops hfair i).trans (stopped_returns hfair)) hkeep
  refine (sending_joins hfair i).trans ?_
  refine Run.LeadsTo.trans (fun t h => hstops t ⟨h, h⟩) (returned_joins hfair i)

end ActiveRun

open ActiveRun

/-- In every run that is fair to every thread, the calls of the clients return; a
callback whose `send`, a client's or another callback's, returned before the
destructor was called is run, in its place; and the destructor, once it is called,
returns. -/
theorem active_progress [DecidableEq ι] {cb : Callbacks F σ} {env : σ} {ρ : ActiveRun ι cb env}
    (hfair : ρ.Fair) :
    (∀ i, ρ.LeadsTo (fun s => s.mq_.thread (some i) ≠ .idle)
          fun s => s.mq_.thread (some i) = .idle)
      ∧ (∀ k f a b, Sends ρ k f a b → (ρ.state b).destructor = .absent →
          ∃ n u, (ρ.state a).mq_.pushed.length ≤ n ∧ n < (ρ.state b).mq_.pushed.length ∧ b ≤ u
            ∧ (ρ.state u).ran[n]? = some f)
      ∧ ∀ i, ρ.LeadsTo (fun s => s.destructor = .sending i) fun s => s.destructor = .finished := by
  refine ⟨fun i t hbusy => ?_, fun k f a b hsends habsent => ?_, destructor_finishes hfair⟩
  · have hcall : ∃ c, ((ρ.state t).mq_.thread (some i)).call = some c := by
      refine Option.ne_none_iff_exists'.mp fun hnone => ?_
      exact hbusy (QueueThread.idle_of_call hnone)
    obtain ⟨c, hc⟩ := hcall
    refine QueueRun.sure_returns hfair.queue (some i) t (QueueThread.sure_of_call hc ?_)
    rintro rfl
    cases ((ρ.ok t).roles.client i _ hc).pops
  · obtain ⟨n, han, hnb, hplace⟩ := hsends.placed
    obtain ⟨u, hbu, hrun⟩ := callback_runs hfair hplace ((ρ.ok b).ran.absent habsent)
    exact ⟨n, u, han, hnb, hbu, hrun⟩

theorem active_progress_one :
    let ρ : ActiveRun Bool appending [] := .replay _ sendAndDestroy rfl
    (ρ.state 6).destructor = .absent ∧ (ρ.state 7).destructor = .sending true
      ∧ ∃ u, 7 ≤ u ∧ (ρ.state u).destructor = .finished := by
  intro ρ
  have hfair : ρ.Fair := by
    refine fair_of_finished (by decide +kernel) fun k => QueueThread.idle_of_call ?_
    rcases k with _ | _ | _ <;> exact Option.isNone_iff_eq_none.mp (by decide +kernel)
  have hsending : (ρ.state 7).destructor = .sending true := by decide +kernel
  obtain ⟨-, -, hdestructor⟩ := active_progress hfair
  exact ⟨by decide +kernel, hsending, hdestructor true 7 hsending⟩

end LockFreeRingBuf
