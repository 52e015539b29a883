import LockFreeRingBuf.Active
import LockFreeRingBuf.SharedQueueLinear

/-!
# What the active object runs

Only the object's own thread pops, so the callbacks that have been run are
those that were pushed first, in the order in which they were pushed, up
to the one that sets `done_`. That one is pushed by the destructor, behind
everything sent before; the thread returns after it, and so the destructor
returns when all of them have been run.
-/

namespace LockFreeRingBuf

open Transition Linearizability

variable {ι F σ : Type}

/-- The message that stops the object's thread. -/
def doneMessage (done_ : Bool) : List (Message F) := if done_ then [.setDone] else []

/-- The message in the hands of `run()`. -/
def ActiveThread.holding : ActiveThread F → List (Message F)
  | .calling m _ => [m]
  | _ => []

/-- The call on `mq_` that `run()` may be in. -/
def ActiveThread.Calls : ActiveThread F → Option (QueueCall (Message F)) → Prop
  | .popping, c => c = some .waitAndPop
  | .calling (.user _) _, c => ∀ d, c = some d → ∃ g, d = .push (.user g)
  | _, c => c = none

/-- The call on `mq_` that client `i` may be in. -/
def Destructor.Calls (d : Destructor ι) (i : ι) (c : QueueCall (Message F)) : Prop :=
  (∃ f, c = .push (.user f)) ∨ c = .empty ∨ c = .push .setDone ∧ d = .sending i

theorem Destructor.Calls.pops {d : Destructor ι} {i : ι} {c : QueueCall (Message F)}
    (h : d.Calls i c) : c.pops = false := by
  rcases h with ⟨f, rfl⟩ | rfl | ⟨rfl, -⟩ <;> rfl

theorem Destructor.Calls.mono {d d' : Destructor ι} {i : ι} {c : QueueCall (Message F)}
    (h : d.Calls i c) (hd : d = .sending i → d' = .sending i) : d'.Calls i c :=
  h.imp_right fun h => h.imp_right fun h => ⟨h.1, hd h.2⟩

namespace Active

/-- The call on `mq_` that thread `k` is in. -/
def calls (s : Active ι F σ) (k : Option ι) : Option (QueueCall (Message F)) :=
  (s.mq_.thread k).call

/-! ## Who makes which calls -/

/-- `run()` and the clients make the calls that the code makes, and `done_` is
set when the thread is about to return, or has returned. -/
structure Roles (s : Active ι F σ) : Prop where
  thd : s.thd_.Calls (s.calls none)
  client : ∀ i c, s.calls (some i) = some c → s.destructor.Calls i c
  sending : ∀ i, s.destructor = .sending i → s.calls (some i) = some (.push .setDone)
  stopping : s.done_ = true → s.thd_ = .test ∨ s.thd_ = .returned
  returned : s.thd_ = .returned → s.done_ = true
  joined : s.destructor = .finished → s.thd_ = .returned

variable {cb : Callbacks F σ} {s s' : Active ι F σ} {env : σ} {i : ι}

namespace Roles

theorem create [DecidableEq ι] (env : σ) : Roles (.create env : Active ι F σ) where
  thd := rfl
  client _ _ h := by cases h
  sending _ h := by cases h
  stopping h := by cases h
  returned h := by cases h
  joined h := by cases h

theorem not_done (h : Roles s) (htest : s.thd_ ≠ .test) (hreturned : s.thd_ ≠ .returned) :
    s.done_ = false := by
  cases hdone : s.done_ with
  | false => rfl
  | true => exact ((h.stopping hdone).elim htest hreturned).elim

/-- Client `i` begins a call, or returns from one. -/
theorem client_goes (h : Roles s) (hthd : s'.thd_ = s.thd_) (hdone : s'.done_ = s.done_)
    (hd : s'.destructor = s.destructor) (hcalls : ∀ k, k ≠ some i → s'.calls k = s.calls k)
    (hc : ∀ c, s'.calls (some i) = some c → s.destructor.Calls i c)
    (hsending : s.destructor ≠ .sending i) : Roles s' where
  thd := by
    rw [hthd, hcalls none (by simp)]
    exact h.thd
  client j c hj := by
    rw [hd]
    by_cases heq : j = i
    · subst heq
      exact hc c hj
    · exact h.client j c ((hcalls _ (by simpa using heq)).symm.trans hj)
  sending j hj := by
    have hj' := hd.symm.trans hj
    have hne : j ≠ i := fun heq => hsending (heq ▸ hj')
    rw [hcalls _ (by simpa using hne)]
    exact h.sending j hj'
  stopping hdone' := by
    rw [hthd]
    exact h.stopping (hdone.symm.trans hdone')
  returned hret := hdone.trans (h.returned (hthd.symm.trans hret))
  joined hjoined := hthd.trans (h.joined (hd.symm.trans hjoined))

/-- The destructor, called by client `i`, goes on. -/
theorem destructor_goes (h : Roles s) (hthd : s'.thd_ = s.thd_) (hdone : s'.done_ = s.done_)
    (hcalls : ∀ k, k ≠ some i → s'.calls k = s.calls k)
    (hc : ∀ c, s'.calls (some i) = some c → s'.destructor.Calls i c)
    (hbefore : ∀ j, s.destructor = .sending j → j = i)
    (hafter : ∀ j, s'.destructor = .sending j → j = i ∧ s'.calls (some i) = some (.push .setDone))
    (hjoined : s'.destructor = .finished → s.thd_ = .returned) : Roles s' where
  thd := by
    rw [hthd, hcalls none (by simp)]
    exact h.thd
  client j c hj := by
    by_cases heq : j = i
    · subst heq
      exact hc c hj
    · rcases h.client j c ((hcalls _ (by simpa using heq)).symm.trans hj) with
        huser | hempty | ⟨-, hsending⟩
      · exact .inl huser
      · exact .inr (.inl hempty)
      · exact absurd (hbefore j hsending) heq
  sending j hj := by
    obtain ⟨rfl, hpush⟩ := hafter j hj
    exact hpush
  stopping hdone' := by
    rw [hthd]
    exact h.stopping (hdone.symm.trans hdone')
  returned hret := hdone.trans (h.returned (hthd.symm.trans hret))
  joined hfinished := hthd.trans (hjoined hfinished)

/-- The object's thread goes on. -/
theorem thd_goes (h : Roles s) (hd : s'.destructor = s.destructor)
    (hcalls : ∀ i, s'.calls (some i) = s.calls (some i)) (hold : s.thd_ ≠ .returned)
    (hc : s'.thd_.Calls (s'.calls none))
    (hstopping : s'.done_ = true → s'.thd_ = .test ∨ s'.thd_ = .returned)
    (hreturned : s'.thd_ = .returned → s'.done_ = true) : Roles s' where
  thd := hc
  client i c hi := by
    rw [hd]
    exact h.client i c ((hcalls i).symm.trans hi)
  sending i hi := (hcalls i).trans (h.sending i (hd.symm.trans hi))
  stopping := hstopping
  returned := hreturned
  joined hjoined := absurd (h.joined (hd.symm.trans hjoined)) hold

/-- Every thread stays in its call. -/
theorem queue_goes (h : Roles s) {q : SharedQueue (Option ι) (Message F)}
    (hcalls : ∀ k, (q.thread k).call = s.calls k) : Roles { s with mq_ := q } where
  thd := by
    show s.thd_.Calls (q.thread none).call
    rw [hcalls]
    exact h.thd
  client i c hi := h.client i c ((hcalls _).symm.trans hi)
  sending i hi := (hcalls _).trans (h.sending i hi)
  stopping := h.stopping
  returned := h.returned
  joined := h.joined

/-- A client that is in no call is not the one that sends `done_ = true`. -/
theorem not_sending (h : Roles s) (hidle : s.mq_.thread (some i) = .idle) :
    s.destructor ≠ .sending i := by
  intro hsending
  have hcall := h.sending i hsending
  rw [calls, hidle] at hcall
  cases hcall

/-- The object's thread returns from a call on `mq_` without a message: it has
sent one for the callback that it is calling. -/
theorem resending (h : Roles s) (hlock : s.mq_.Locking) {c : QueueCall (Message F)}
    {a : QueueAnswer (Message F)} (hret : s.mq_.thread none = .ret c a)
    (hother : s.thd_ = .popping → ∀ m, a ≠ .popped (some m)) :
    (∃ f todo, s.thd_ = .calling (.user f) todo) ∧ a = .done := by
  have hsound := (hlock.place none).sound
  have hcalls := h.thd
  rw [calls, hret] at hcalls
  rw [hret] at hsound
  cases hthd : s.thd_ with
  | test | returned => rw [hthd] at hcalls; cases hcalls
  | popping =>
      rw [hthd] at hcalls
      obtain rfl : c = .waitAndPop := Option.some.inj hcalls
      obtain ⟨m, rfl⟩ := hsound
      exact absurd rfl (hother hthd m)
  | calling m todo =>
      rw [hthd] at hcalls
      cases m with
      | setDone => cases hcalls
      | user f =>
          obtain ⟨g, rfl⟩ := hcalls c rfl
          exact ⟨⟨f, todo, rfl⟩, hsound⟩

/-- Only the object's own thread pops. -/
theorem popper (h : Roles s) {k : Option ι} {c : QueueCall (Message F)} (hc : s.calls k = some c)
    (hpops : c.pops = true) : k = none := by
  cases k with
  | none => rfl
  | some i => cases hpops.symm.trans (h.client i c hc).pops

/-- The destructor's message is sent by the destructor. -/
theorem sender (h : Roles s) {k : Option ι} (hc : s.calls k = some (.push .setDone)) :
    s.destructor ≠ .absent := by
  cases k with
  | none =>
      have hcalls := h.thd
      rw [hc] at hcalls
      cases hthd : s.thd_ with
      | test | popping | returned => rw [hthd] at hcalls; cases hcalls
      | calling m todo =>
          rw [hthd] at hcalls
          cases m with
          | setDone => cases hcalls
          | user f =>
              obtain ⟨g, hg⟩ := hcalls _ rfl
              cases hg
  | some i =>
      rcases h.client i _ hc with ⟨f, hf⟩ | hempty | ⟨-, hsending⟩
      · cases hf
      · cases hempty
      · rw [hsending]
        nofun

variable [DecidableEq ι]

theorem step {l : ActiveLabel ι F} (h : Roles s) (hlock : s.mq_.Locking)
    (hmove : s.Moves cb l s') : Roles s' := by
  have hothers : ∀ (k : Option ι) (p : QueueThread (Message F)) (j : Option ι), j ≠ k →
      ((s.mq_.goto k p).thread j).call = s.calls j := by
    intro k p j hj
    rw [SharedQueue.goto_of_ne hj]
    rfl
  have hself : ∀ (k : Option ι) (p : QueueThread (Message F)),
      ((s.mq_.goto k p).thread k).call = p.call := by
    intro k p
    rw [SharedQueue.goto_self]
  cases hmove with
  | @send i f q husable hq =>
      obtain ⟨hidle, rfl⟩ := SharedQueue.begins hq
      refine h.client_goes rfl rfl rfl (hothers _ _) (fun c hc => ?_) (h.not_sending hidle)
      obtain rfl := Option.some.inj ((hself _ _).symm.trans hc)
      exact .inl ⟨f, rfl⟩
  | @isActive i q husable hq =>
      obtain ⟨hidle, rfl⟩ := SharedQueue.begins hq
      refine h.client_goes rfl rfl rfl (hothers _ _) (fun c hc => ?_) (h.not_sending hidle)
      obtain rfl := Option.some.inj ((hself _ _).symm.trans hc)
      exact .inr (.inl rfl)
  | @destroy i q habsent hq =>
      obtain ⟨hidle, rfl⟩ := SharedQueue.begins hq
      refine h.destructor_goes rfl rfl (hothers _ _) (fun c hc => ?_) (fun j hj => ?_)
        (fun j hj => ?_) nofun
      · obtain rfl := Option.some.inj ((hself _ _).symm.trans hc)
        exact .inr (.inr ⟨rfl, rfl⟩)
      · cases habsent.symm.trans hj
      · obtain rfl := Destructor.sending.inj hj
        exact ⟨rfl, hself _ _⟩
  | @join i hthd hjoining =>
      refine h.destructor_goes (i := i) rfl rfl (fun _ _ => rfl) (fun c hc => ?_) (fun j hj => ?_)
        nofun fun _ => hthd
      · refine (h.client i c hc).mono fun hsending => ?_
        cases hjoining.symm.trans hsending
      · cases hjoining.symm.trans hj
  | stop hthd hdone =>
      refine h.thd_goes rfl (fun _ => rfl) (by rw [hthd]; nofun) ?_ (fun _ => .inr rfl)
        fun _ => hdone
      have hcalls := h.thd
      rw [hthd] at hcalls
      exact hcalls
  | wait hthd hdone hq =>
      obtain ⟨-, rfl⟩ := SharedQueue.begins hq
      refine h.thd_goes rfl (fun i => hothers _ _ _ nofun) (by rw [hthd]; nofun) (hself _ _) ?_
        nofun
      intro hdone'
      cases hdone.symm.trans hdone'
  | @resend f g todo q hthd hq =>
      obtain ⟨-, rfl⟩ := SharedQueue.begins hq
      have hdone := h.not_done (by rw [hthd]; nofun) (by rw [hthd]; nofun)
      refine h.thd_goes rfl (fun i => hothers _ _ _ nofun) (by rw [hthd]; nofun) ?_ ?_ nofun
      · intro c hc
        exact ⟨g, (Option.some.inj ((hself _ _).symm.trans hc)).symm⟩
      · intro hdone'
        cases hdone.symm.trans hdone'
  | run hthd hidle =>
      refine h.thd_goes rfl (fun _ => rfl) (by rw [hthd]; nofun) ?_ (fun _ => .inl rfl) nofun
      show (s.mq_.thread none).call = none
      rw [hidle]
      rfl
  | setDone hthd =>
      refine h.thd_goes rfl (fun _ => rfl) (by rw [hthd]; nofun) ?_ (fun _ => .inl rfl) nofun
      have hcalls := h.thd
      rw [hthd] at hcalls
      exact hcalls
  | queue hinside hq =>
      exact h.queue_goes ((SharedQueue.step_moves hq).inside hlock hinside).1
  | @received c m q hret hthd hq =>
      obtain rfl := SharedQueue.returns hret hq
      have hdone := h.not_done (by rw [hthd]; nofun) (by rw [hthd]; nofun)
      refine h.thd_goes rfl (fun i => hothers _ _ _ nofun) (by rw [hthd]; nofun) ?_ ?_ nofun
      · show (ActiveThread.calling m (cb.todo m)).Calls ((s.mq_.goto none .idle).thread none).call
        rw [hself]
        cases m with
        | user f => exact nofun
        | setDone => exact rfl
      · intro hdone'
        cases hdone.symm.trans hdone'
  | @resent c a q hret hother hq =>
      obtain rfl := SharedQueue.returns hret hq
      obtain ⟨⟨f, todo, hthd⟩, -⟩ := h.resending hlock hret hother
      have hdone := h.not_done (by rw [hthd]; nofun) (by rw [hthd]; nofun)
      refine h.thd_goes rfl (fun i => hothers _ _ _ nofun) (by rw [hthd]; nofun) ?_ ?_ ?_
      · show s.thd_.Calls ((s.mq_.goto none .idle).thread none).call
        rw [hself, hthd]
        exact nofun
      · intro hdone'
        cases hdone.symm.trans hdone'
      · intro hreturned
        cases hthd.symm.trans hreturned
  | @sentDone i c a q hret hsending hq =>
      obtain rfl := SharedQueue.returns hret hq
      refine h.destructor_goes rfl rfl (hothers _ _) (fun c hc => ?_) (fun j hj => ?_) nofun nofun
      · cases (hself _ _).symm.trans hc
      · exact (Destructor.sending.inj (hsending.symm.trans hj)).symm
  | @answered i c b q hret hsending hq =>
      obtain rfl := SharedQueue.returns hret hq
      refine h.client_goes rfl rfl rfl (hothers _ _) (fun c hc => ?_) hsending
      cases (hself _ _).symm.trans hc
  | @sent i c a q hret hsending hother hq =>
      obtain rfl := SharedQueue.returns hret hq
      refine h.client_goes rfl rfl rfl (hothers _ _) (fun c hc => ?_) hsending
      cases (hself _ _).symm.trans hc

end Roles

/-! ## What has been run -/

/-- What has been popped is what has been run, and what the thread has in its
hands; and the callbacks were run one after the other. -/
structure Ran (cb : Callbacks F σ) (env : σ) (s : Active ι F σ) : Prop where
  popped : s.mq_.popped
    = s.ran.map .user ++ doneMessage s.done_ ++ s.thd_.holding ++ (s.mq_.thread none).taken
  env : s.env = s.ran.foldl (fun e f => cb.run f e) env
  absent : s.destructor = .absent → .setDone ∉ s.mq_.pushed

namespace Ran

theorem create [DecidableEq ι] (cb : Callbacks F σ) (env : σ) :
    Ran cb env (.create env : Active ι F σ) where
  popped := rfl
  env := rfl
  absent _ := List.not_mem_nil

/-- Nothing is run or popped. -/
theorem keep (h : Ran cb env s) (hpopped : s'.mq_.popped = s.mq_.popped) (hran : s'.ran = s.ran)
    (hdone : s'.done_ = s.done_) (henv : s'.env = s.env)
    (hheld : s'.thd_.holding ++ (s'.mq_.thread none).taken
      = s.thd_.holding ++ (s.mq_.thread none).taken)
    (habsent : s'.destructor = .absent → .setDone ∉ s'.mq_.pushed) : Ran cb env s' where
  popped := by
    rw [hpopped, hran, hdone, List.append_assoc, hheld, ← List.append_assoc]
    exact h.popped
  env := by
    rw [henv, hran]
    exact h.env
  absent := habsent

variable [DecidableEq ι]

theorem step {l : ActiveLabel ι F} (h : Ran cb env s) (hroles : Roles s) (hlock : s.mq_.Locking)
    (hmove : s.Moves cb l s') : Ran cb env s' := by
  have hclient : ∀ (i : ι) (p : QueueThread (Message F)),
      ((s.mq_.goto (some i) p).thread none).taken = (s.mq_.thread none).taken := by
    intro i p
    rw [SharedQueue.goto_of_ne (Option.some_ne_none i).symm]
  have hbegin : ∀ c, s.mq_.thread none = .idle →
      ((s.mq_.goto none (.lock c)).thread none).taken = (s.mq_.thread none).taken := by
    intro c hidle
    rw [SharedQueue.goto_self, hidle]
    rfl
  cases hmove with
  | @send i f q husable hq =>
      obtain ⟨hidle, rfl⟩ := SharedQueue.begins hq
      exact h.keep rfl rfl rfl rfl (congrArg _ (hclient _ _)) h.absent
  | @isActive i q husable hq =>
      obtain ⟨hidle, rfl⟩ := SharedQueue.begins hq
      exact h.keep rfl rfl rfl rfl (congrArg _ (hclient _ _)) h.absent
  | @destroy i q habsent hq =>
      obtain ⟨hidle, rfl⟩ := SharedQueue.begins hq
      exact h.keep rfl rfl rfl rfl (congrArg _ (hclient _ _)) nofun
  | join hthd hjoining => exact h.keep rfl rfl rfl rfl rfl nofun
  | stop hthd hdone => exact h.keep rfl rfl rfl rfl (by rw [hthd]; rfl) h.absent
  | wait hthd hdone hq =>
      obtain ⟨hidle, rfl⟩ := SharedQueue.begins hq
      refine h.keep rfl rfl rfl rfl ?_ h.absent
      rw [hbegin _ hidle, hthd]
      rfl
  | @resend f g todo q hthd hq =>
      obtain ⟨hidle, rfl⟩ := SharedQueue.begins hq
      refine h.keep rfl rfl rfl rfl ?_ h.absent
      rw [hbegin _ hidle, hthd]
      rfl
  | @run f hthd hidle =>
      have hdone := hroles.not_done (by rw [hthd]; nofun) (by rw [hthd]; nofun)
      refine ⟨?_, ?_, h.absent⟩
      · show s.mq_.popped = (s.ran ++ [f]).map .user ++ doneMessage s.done_ ++ []
          ++ (s.mq_.thread none).taken
        rw [h.popped, hthd, hidle, hdone]
        simp [doneMessage, ActiveThread.holding, QueueThread.taken]
      · show cb.run f s.env = (s.ran ++ [f]).foldl (fun e f => cb.run f e) env
        rw [List.foldl_append, ← h.env]
        rfl
  | setDone hthd =>
      have hdone := hroles.not_done (by rw [hthd]; nofun) (by rw [hthd]; nofun)
      refine ⟨?_, h.env, h.absent⟩
      rw [h.popped, hthd, hdone]
      simp [doneMessage, ActiveThread.holding]
  | @queue l q hinside hq =>
      have hmove := SharedQueue.step_moves hq
      rcases (hmove.inside hlock hinside).2 with ⟨hpushed, hpopped, htaken⟩ |
        @⟨k, item, hk, hpushed, hpopped, htaken⟩ | @⟨k, c, t, hk, hpushed, hpopped, hself, hothers⟩
      · refine h.keep hpopped rfl rfl rfl (congrArg _ (htaken none)) fun habsent => ?_
        rw [hpushed]
        exact h.absent habsent
      · refine h.keep hpopped rfl rfl rfl (congrArg _ (htaken none)) fun habsent => ?_
        rw [hpushed]
        intro hmem
        rcases List.mem_append.mp hmem with hmem | hmem
        · exact h.absent habsent hmem
        · obtain rfl := List.mem_singleton.mp hmem
          refine hroles.sender (k := k) ?_ habsent
          rw [calls, hk]
          rfl
      · have hsound := (hlock.place k).sound
        rw [hk] at hsound
        obtain rfl : k = none := hroles.popper (by rw [calls, hk]; rfl) hsound
        refine ⟨?_, h.env, fun habsent => ?_⟩
        · rw [hpopped, h.popped, hself, hk]
          simp [QueueThread.taken]
        · rw [hpushed]
          exact h.absent habsent
  | @received c m q hret hthd hq =>
      obtain rfl := SharedQueue.returns hret hq
      refine h.keep rfl rfl rfl rfl ?_ h.absent
      rw [SharedQueue.goto_self, hret, hthd]
      rfl
  | @resent c a q hret hother hq =>
      obtain rfl := SharedQueue.returns hret hq
      obtain ⟨-, rfl⟩ := hroles.resending hlock hret hother
      refine h.keep rfl rfl rfl rfl ?_ h.absent
      rw [SharedQueue.goto_self, hret]
      rfl
  | @sentDone i c a q hret hsending hq =>
      obtain rfl := SharedQueue.returns hret hq
      exact h.keep rfl rfl rfl rfl (congrArg _ (hclient _ _)) nofun
  | @answered i c b q hret hsending hq =>
      obtain rfl := SharedQueue.returns hret hq
      exact h.keep rfl rfl rfl rfl (congrArg _ (hclient _ _)) h.absent
  | @sent i c a q hret hsending hother hq =>
      obtain rfl := SharedQueue.returns hret hq
      exact h.keep rfl rfl rfl rfl (congrArg _ (hclient _ _)) h.absent

end Ran

/-! ## Every reachable state -/

structure Ok (cb : Callbacks F σ) (env : σ) (s : Active ι F σ) : Prop where
  queue : SharedQueue.Ok cb.moved s.mq_
  roles : Roles s
  ran : Ran cb env s

namespace Ok

/-- The callbacks that have been run are those that were pushed first. -/
theorem ran_pushed (h : Ok cb env s) : s.ran.map .user <+: s.mq_.pushed := by
  refine List.IsPrefix.trans ?_ h.queue.stored.ordered
  rw [h.ran.popped, List.append_assoc, List.append_assoc]
  exact List.prefix_append _ _

/-- When the thread has returned, all that was popped has been run. -/
theorem popped_of_returned (h : Ok cb env s) (hreturned : s.thd_ = .returned) :
    s.mq_.popped = s.ran.map .user ++ [.setDone] := by
  have hcalls := h.roles.thd
  have hidle : (s.mq_.thread none).taken = [] := by
    refine SharedQueue.taken_eq_nil h.queue.locking fun c hc => ?_
    rw [hreturned] at hcalls
    cases hcalls.symm.trans hc
  rw [h.ran.popped, h.roles.returned hreturned, hreturned, hidle]
  simp [doneMessage, ActiveThread.holding]

/-- The thread has one message in its hands at most. -/
theorem held_length_le (h : Ok cb env s) :
    (s.thd_.holding ++ (s.mq_.thread none).taken).length ≤ 1 := by
  have hcalls := h.roles.thd
  cases hthd : s.thd_ with
  | test | popping | returned =>
      show (s.mq_.thread none).taken.length ≤ 1
      cases s.mq_.thread none with
      | unlock c a | ret c a =>
          show a.taken.length ≤ 1
          unfold QueueAnswer.taken
          split
          · exact Nat.le_refl _
          · exact Nat.zero_le _
      | _ => exact Nat.zero_le _
  | calling m todo =>
      have hnone : (s.mq_.thread none).taken = [] := by
        refine SharedQueue.taken_eq_nil h.queue.locking fun c hc => ?_
        rw [hthd, calls, hc] at hcalls
        cases m with
        | setDone => cases hcalls
        | user f =>
            obtain ⟨g, rfl⟩ := hcalls c rfl
            rfl
      rw [hnone]
      exact Nat.le_refl _

end Ok

/-- The step of the queue that a step of the object makes. -/
def queueLabel (s : Active ι F σ) :
    ActiveLabel ι F → Option (QueueLabel (Option ι) (Message F))
  | .send i f => some (.call (some i) (.push (.user f)))
  | .isActive i => some (.call (some i) .empty)
  | .destroy i => some (.call (some i) (.push .setDone))
  | .join _ => none
  | .thd =>
    match s.thd_ with
    | .test => if s.done_ then none else some (.call none .waitAndPop)
    | .calling (.user _) (g :: _) => some (.call none (.push (.user g)))
    | _ => none
  | .queue l => some l
  | .ret k => some (.step k)

/-- Step `l` calls `send(f)` on thread `k`: a client's, or the object's own in the
callback that it is running. -/
def Sends (s : Active ι F σ) (l : ActiveLabel ι F) : Option ι → F → Prop
  | some i, f => l = .send i f
  | none, f => l = .thd ∧ ∃ g todo, s.thd_ = .calling (.user g) (f :: todo)

theorem Sends.queueLabel_eq {l : ActiveLabel ι F} {k : Option ι} {f : F} (h : s.Sends l k f) :
    s.queueLabel l = some (.call k (.push (.user f))) := by
  cases k with
  | some i =>
      obtain rfl : l = .send i f := h
      rfl
  | none =>
      obtain ⟨rfl, g, todo, hthd⟩ := h
      simp [queueLabel, hthd]

variable [DecidableEq ι] {l : ActiveLabel ι F}

theorem Moves.onQueue (hmove : s.Moves cb l s') :
    (s.queueLabel l = none ∧ s'.mq_ = s.mq_)
      ∨ ∃ l', s.queueLabel l = some l' ∧ SharedQueue.step cb.moved l' s.mq_ = some s'.mq_ := by
  cases hmove with
  | join => exact .inl ⟨rfl, rfl⟩
  | stop hthd hdone => exact .inl ⟨by simp [queueLabel, hthd, hdone], rfl⟩
  | run hthd => exact .inl ⟨by simp [queueLabel, hthd], rfl⟩
  | setDone hthd => exact .inl ⟨by simp [queueLabel, hthd], rfl⟩
  | wait hthd hdone hq => exact .inr ⟨_, by simp [queueLabel, hthd, hdone], hq⟩
  | resend hthd hq => exact .inr ⟨_, by simp [queueLabel, hthd], hq⟩
  | send _ hq | isActive _ hq | destroy _ hq | queue _ hq => exact .inr ⟨_, rfl, hq⟩
  | received _ _ hq | resent _ _ hq | sentDone _ _ hq | answered _ _ hq => exact .inr ⟨_, rfl, hq⟩
  | sent _ _ _ hq => exact .inr ⟨_, rfl, hq⟩

/-- A call on the queue returns where its caller goes on with the answer. -/
theorem Moves.ret_of_queueLabel {k : Option ι} {c : QueueCall (Message F)}
    {a : QueueAnswer (Message F)} (hmove : s.Moves cb l s') (hl : s.queueLabel l = some (.step k))
    (hret : s.mq_.thread k = .ret c a) : l = .ret k := by
  cases hmove with
  | send | isActive | destroy | join => cases hl
  | stop hthd hdone => simp [queueLabel, hthd, hdone] at hl
  | wait hthd hdone => simp [queueLabel, hthd, hdone] at hl
  | resend hthd | run hthd | setDone hthd => simp [queueLabel, hthd] at hl
  | queue hinside =>
      obtain rfl := Option.some.inj hl
      simp [QueueLabel.inside, hret] at hinside
  | received | resent | sentDone | answered | sent =>
      obtain rfl := QueueLabel.step.inj (Option.some.inj hl)
      rfl

theorem ok_reachable (h : (activeSystem ι cb env).Reachable s) : Ok cb env s := by
  refine h.invariant (I := Ok cb env) ?_ ?_
  · rintro s rfl
    exact ⟨SharedQueue.ok_fresh _, .create env, .create cb env⟩
  · intro l u u' _ hu hstep
    have hmove := step_moves hstep
    refine ⟨?_, hu.roles.step hu.queue.locking hmove,
      hu.ran.step hu.roles hu.queue.locking hmove⟩
    rcases hmove.onQueue with ⟨-, heq⟩ | ⟨l', -, hq⟩
    · rw [heq]
      exact hu.queue
    · exact hu.queue.step (SharedQueue.step_moves hq)

/-- Once the thread has returned nothing is run. -/
theorem Moves.returned (hmove : s.Moves cb l s') (h : s.thd_ = .returned) :
    s'.thd_ = .returned ∧ s'.ran = s.ran := by
  cases hmove with
  | stop hthd | wait hthd | resend hthd | run hthd | setDone hthd => cases h.symm.trans hthd
  | received hret hthd => cases h.symm.trans hthd
  | _ => exact ⟨h, rfl⟩

end Active

end LockFreeRingBuf
