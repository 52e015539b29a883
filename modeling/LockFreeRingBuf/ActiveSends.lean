import LockFreeRingBuf.ActiveRules
import LockFreeRingBuf.SharedQueueLinear

/-!
# What becomes of a callback that is sent

A run of the active object is, seen from its queue, a run of the queue,
and so a call of `send` or `isActive` takes effect at one time before it
returns. This gives the callback its place among those pushed, and `run()`
takes them in that order. The destructor's message comes behind every
callback whose `send` had returned when the destructor was called.
-/

namespace LockFreeRingBuf

open Transition Linearizability

variable {ι F σ : Type} [DecidableEq ι]

abbrev ActiveRun (ι : Type) {F σ : Type} [DecidableEq ι] (cb : Callbacks F σ) (env : σ) :=
  Run (activeSystem ι cb env)

namespace ActiveRun

variable {cb : Callbacks F σ} {env : σ} {ρ : ActiveRun ι cb env} {t u : Nat} {i : ι}

theorem ok (ρ : ActiveRun ι cb env) (t : Nat) : Active.Ok cb env (ρ.state t) :=
  Active.ok_reachable (ρ.reachable t)

theorem moves {l : ActiveLabel ι F} (hl : ρ.label t = some l) :
    (ρ.state t).Moves cb l (ρ.state (t + 1)) := by
  rcases ρ.next t with ⟨hnone, -⟩ | ⟨l', hl', hstep⟩
  · cases hl.symm.trans hnone
  · obtain rfl := Option.some.inj (hl.symm.trans hl')
    exact Active.step_moves hstep

/-- The run of the queue. -/
def queue (ρ : ActiveRun ι cb env) : QueueRun (Option ι) cb.moved :=
  ρ.project Active.mq_ Active.queueLabel (by rintro s rfl; rfl)
    fun _ _ _ hstep => (Active.step_moves hstep).onQueue

/-- Thread `k` is in a call from time `a` on, and returns from it at time `b`. -/
structure Spans (ρ : ActiveRun ι cb env) (k : Option ι) (a b : Nat) : Prop where
  before : a < b
  returns : ρ.label b = some (.ret k)
  between : ∀ u, a < u → u < b → ρ.label u ≠ some (.ret k)

/-- Client `i`'s call, begun at time `a`, returns at time `b`. -/
structure Called (ρ : ActiveRun ι cb env) (l : ActiveLabel ι F) (i : ι) (a b : Nat) : Prop where
  begins : ρ.label a = some l
  before : a < b
  returns : ρ.label b = some (.ret (some i))
  between : ∀ u, a < u → u < b → ρ.label u ≠ some (.ret (some i))

/-- Thread `k`'s call of `send(f)`, begun at time `a`, returns at time `b`. The
object's own thread makes it for the callback that it is running. -/
structure Sends (ρ : ActiveRun ι cb env) (k : Option ι) (f : F) (a b : Nat) : Prop
    extends Spans ρ k a b where
  begins : ∃ l, ρ.label a = some l ∧ (ρ.state a).Sends l k f

theorem Called.spans {l : ActiveLabel ι F} {a b : Nat} (h : Called ρ l i a b) :
    Spans ρ (some i) a b where
  before := h.before
  returns := h.returns
  between := h.between

/-- The step at time `t` begins call `c` of thread `k` on the queue. -/
def Begins (ρ : ActiveRun ι cb env) (k : Option ι) (c : QueueCall (Message F)) (t : Nat) : Prop :=
  ∃ l, ρ.label t = some l ∧ (ρ.state t).queueLabel l = some (.call k c)

theorem Sends.begins_push {k : Option ι} {f : F} {a b : Nat} (h : Sends ρ k f a b) :
    Begins ρ k (.push (.user f)) a := by
  obtain ⟨l, hl, hsends⟩ := h.begins
  exact ⟨l, hl, hsends.queueLabel_eq⟩

/-- A thread's call is one on the queue. -/
theorem Spans.open_queue {k : Option ι} {a b : Nat} {c : QueueCall (Message F)}
    (h : Spans ρ k a b) (hbegins : Begins ρ k c a) : ρ.queue.history.Open k a c b := by
  refine ⟨?_, h.before, fun u hau hub r => ?_⟩
  · obtain ⟨l, hl, hcall⟩ := hbegins
    show (ρ.label a).bind _ = _
    rw [hl]
    exact hcall
  · rintro ⟨hlabel, c', hret⟩
    obtain ⟨l', hl', hstep⟩ := Option.bind_eq_some_iff.mp hlabel
    obtain rfl := (moves hl').ret_of_queueLabel hstep hret
    exact h.between u hau hub hl'

/-- When a thread's call returns, its call on the queue does. -/
theorem Spans.returns_queue {k : Option ι} {a b : Nat} (h : Spans ρ k a b) :
    ∃ r, ρ.queue.history.returns b k r ∧ ∃ c, (ρ.state b).mq_.thread k = .ret c r := by
  have hret : ∃ c r, (ρ.state b).mq_.thread k = .ret c r := by
    have hmove := moves h.returns
    generalize ρ.state (b + 1) = s' at hmove
    cases hmove with
    | received hret | resent hret => exact ⟨_, _, hret⟩
    | sentDone hret | answered hret | sent hret => exact ⟨_, _, hret⟩
  obtain ⟨c, r, hret⟩ := hret
  refine ⟨r, ⟨?_, c, hret⟩, c, hret⟩
  show (ρ.label b).bind _ = _
  rw [h.returns]
  rfl

/-- A thread's call takes effect on the queue before it returns. -/
theorem Spans.takes {k : Option ι} {a b : Nat} {c : QueueCall (Message F)} (h : Spans ρ k a b)
    (hbegins : Begins ρ k c a) :
    ∃ r t, a < t ∧ t < b ∧ ρ.queue.effect t = some (k, c, r)
      ∧ ∃ c', (ρ.state b).mq_.thread k = .ret c' r := by
  obtain ⟨r, hreturns, hret⟩ := h.returns_queue
  obtain ⟨t, hat, htb, heffect⟩ := ρ.queue.linearizes.complete (h.open_queue hbegins) hreturns
  exact ⟨r, t, hat, htb, heffect, hret⟩

theorem pushed_grows (ρ : ActiveRun ι cb env) (htu : t ≤ u) :
    (ρ.state t).mq_.pushed <+: (ρ.state u).mq_.pushed := by
  refine ρ.queue.between (r := fun q q' => q.pushed <+: q'.pushed) (I := fun _ => True)
    (fun _ => List.prefix_rfl) (fun _ _ _ h h' => h.trans h') ?_ htu fun _ _ _ => trivial
  exact fun _ _ _ _ _ hstep => (SharedQueue.step_moves hstep).pushed_grows

/-- A callback that was sent has its place among those pushed. -/
theorem Sends.placed {k : Option ι} {f : F} {a b : Nat} (h : Sends ρ k f a b) :
    ∃ n, (ρ.state a).mq_.pushed.length ≤ n ∧ n < (ρ.state b).mq_.pushed.length
      ∧ (ρ.state b).mq_.pushed[n]? = some (.user f) := by
  obtain ⟨r, t, hat, htb, heffect, -⟩ := h.takes h.begins_push
  obtain ⟨l, hl, hl'⟩ := QueueRun.effect_cases heffect
  have hpushed : (ρ.state (t + 1)).mq_.pushed = (ρ.state t).mq_.pushed ++ [.user f] :=
    (QueueRun.moves hl).pushed_eq (ρ.ok t).queue.locking hl'
  have hbefore : (ρ.state a).mq_.pushed <+: (ρ.state t).mq_.pushed :=
    ρ.pushed_grows (Nat.le_of_lt hat)
  have hafter := ρ.pushed_grows (Nat.succ_le_of_lt htb)
  rw [hpushed] at hafter
  refine ⟨(ρ.state t).mq_.pushed.length, hbefore.length_le, ?_, ?_⟩
  · have hlen := hafter.length_le
    rw [List.length_append, List.length_singleton] at hlen
    omega
  · obtain ⟨rest, hrest⟩ := hafter
    rw [← hrest]
    simp

/-- Once the thread has returned it stays so, and nothing is run. -/
theorem returned_stays (h : (ρ.state t).thd_ = .returned) (htu : t ≤ u) :
    (ρ.state u).thd_ = .returned ∧ (ρ.state u).ran = (ρ.state t).ran := by
  induction htu with
  | refl => exact ⟨h, rfl⟩
  | @step u htu ih =>
      rcases ρ.next u with ⟨-, hsame⟩ | ⟨l, hl, hstep⟩
      · rw [hsame]
        exact ih
      · obtain ⟨hreturned, hran⟩ := (Active.step_moves hstep).returned ih.1
        exact ⟨hreturned, hran.trans ih.2⟩

/-- When the thread has returned, everything that was pushed before the destructor
was called has been run. -/
theorem all_run (habsent : (ρ.state t).destructor = .absent)
    (hreturned : (ρ.state u).thd_ = .returned) (htu : t ≤ u) :
    (ρ.state t).mq_.pushed <+: (ρ.state u).ran.map .user := by
  have hpopped := (ρ.ok u).popped_of_returned hreturned
  have hordered := (ρ.ok u).queue.stored.ordered
  rw [hpopped] at hordered
  have hnone : .setDone ∉ (ρ.state t).mq_.pushed := (ρ.ok t).ran.absent habsent
  rcases List.prefix_or_prefix_of_prefix (ρ.pushed_grows htu) hordered with hfirst | hfirst
  · -- What was pushed then is popped now, and the last thing popped is not among it.
    rcases List.prefix_concat_iff.mp hfirst with heq | hfirst
    · exact absurd (heq ▸ by simp) hnone
    · exact hfirst
  · exact absurd (hfirst.subset (by simp)) hnone

/-- What `empty()` answers, `isActive()` returns negated. -/
theorem verdict {c : QueueCall (Message F)} {v : Bool} (hl : ρ.label t = some (.ret (some i)))
    (hret : (ρ.state t).mq_.thread (some i) = .ret c (.isEmpty v)) :
    (ρ.state (t + 1)).verdicts = (ρ.state t).verdicts ++ [(i, !v)] := by
  have hmove := moves hl
  generalize ρ.state (t + 1) = s' at hmove
  cases hmove with
  | sentDone _ hsending =>
      have hcall := (ρ.ok t).roles.sending i hsending
      have hsound := ((ρ.ok t).queue.locking.place (some i)).sound
      rw [Active.calls, hret] at hcall
      rw [hret] at hsound
      obtain rfl : c = .push .setDone := Option.some.inj hcall
      cases hsound
  | answered hret' =>
      obtain ⟨-, heq⟩ := QueueThread.ret.inj (hret.symm.trans hret')
      obtain rfl := QueueAnswer.isEmpty.inj heq
      rfl
  | sent hret' _ hother =>
      obtain ⟨-, rfl⟩ := QueueThread.ret.inj (hret.symm.trans hret')
      exact absurd rfl (hother v)

end ActiveRun

open ActiveRun

/-- In every run of an active object, of any number of clients and under any
schedule, the callbacks that have been run are the first of those pushed, in
order and each once, one after the other. A call of `send` that has returned, a
client's or one that a callback makes, has given its callback a place among those
pushed, between those pushed before the call began and those pushed after it
returned; if it returned before the destructor was called, then at the destructor's
return the callback has been run, in that place. After the destructor has returned
nothing is run any more. -/
theorem sent_callbacks_run {cb : Callbacks F σ} {env : σ} (ρ : ActiveRun ι cb env) :
    (∀ t, (ρ.state t).ran.map .user <+: (ρ.state t).mq_.pushed
        ∧ (ρ.state t).env = (ρ.state t).ran.foldl (fun e f => cb.run f e) env)
      ∧ (∀ k f a b, Sends ρ k f a b →
          ∃ n, (ρ.state a).mq_.pushed.length ≤ n ∧ n < (ρ.state b).mq_.pushed.length
            ∧ (ρ.state b).mq_.pushed[n]? = some (.user f)
            ∧ ∀ t, b ≤ t → (ρ.state b).destructor = .absent → (ρ.state t).destructor = .finished →
                (ρ.state t).ran[n]? = some f)
      ∧ ∀ t u, t ≤ u → (ρ.state t).destructor = .finished →
          (ρ.state u).ran = (ρ.state t).ran := by
  refine ⟨fun t => ⟨(ρ.ok t).ran_pushed, (ρ.ok t).ran.env⟩, ?_, ?_⟩
  · intro k f a b hsends
    obtain ⟨n, han, hnb, hplace⟩ := hsends.placed
    refine ⟨n, han, hnb, hplace, fun t hbt habsent hfinished => ?_⟩
    have hfirst := ρ.all_run habsent ((ρ.ok t).roles.joined hfinished) hbt
    have hrun : ((ρ.state t).ran.map Message.user)[n]? = some (.user f) := by
      obtain ⟨rest, hrest⟩ := hfirst
      rw [← hrest, List.getElem?_append_left hnb, hplace]
    simpa using hrun
  · intro t u htu hfinished
    exact (returned_stays ((ρ.ok t).roles.joined hfinished) htu).2

/-- Callback `n` appends `n`; callback 5 sends callback 7. -/
def appending : Callbacks Nat (List Nat) where
  run n env := env ++ [n]
  sends n := if n = 5 then [7] else []
  moved m := m

/-- Thread `k` takes `n` steps inside its call. -/
def inCall (k : Option Bool) (n : Nat) : List (ActiveLabel Bool Nat) :=
  .replicate n (.queue (.step k))

/-- The rest of a call of `send`. -/
def pushing (k : Option Bool) : List (ActiveLabel Bool Nat) :=
  inCall k 3 ++ [.queue (.notify k none), .ret k]

/-- A client sends callback 5, another destroys the object, and then its thread
runs; callback 7 comes behind the message of the destructor. -/
def sendAndDestroy : List (ActiveLabel Bool Nat) :=
  .send false 5 :: pushing (some false) ++ .destroy true :: pushing (some true)
    ++ .thd :: inCall none 5 ++ [.ret none, .thd] ++ pushing none ++ [.thd]
    ++ .thd :: inCall none 5 ++ [.ret none, .thd, .thd, .join true]

/-- The object's thread pops callback 5, sends callback 7 for it and runs it; then the
object is destroyed, and callback 7 is run before the message of the destructor. -/
def resendAndDestroy : List (ActiveLabel Bool Nat) :=
  .send false 5 :: pushing (some false)
    ++ .thd :: inCall none 5 ++ [.ret none, .thd] ++ pushing none ++ [.thd]
    ++ .destroy true :: pushing (some true)
    ++ .thd :: inCall none 5 ++ [.ret none, .thd]
    ++ .thd :: inCall none 5 ++ [.ret none, .thd, .thd, .join true]

theorem sent_callbacks_run_one :
    let ρ : ActiveRun Bool appending [] := .replay _ resendAndDestroy rfl
    (ρ.state 44).destructor = .finished ∧ (ρ.state 44).mq_.pushed.length = 3
      ∧ (∃ n : Nat, (ρ.state 44).ran[n]? = some 5) ∧ ∃ n : Nat, (ρ.state 44).ran[n]? = some 7 := by
  intro ρ
  have hfinished : (ρ.state 44).destructor = .finished := by decide +kernel
  obtain ⟨-, hsent, -⟩ := sent_callbacks_run ρ
  -- The client's call is one of `send(5)`, the one of the object's thread one of `send(7)`.
  have hclient : Sends ρ (some false) 5 0 5 := by
    refine ⟨⟨by decide, rfl, fun u h h' => ?_⟩, _, rfl, rfl⟩
    obtain rfl | rfl | rfl | rfl : u = 1 ∨ u = 2 ∨ u = 3 ∨ u = 4 := by omega
    all_goals nofun
  have hcallback : Sends ρ none 7 13 18 := by
    refine ⟨⟨by decide, rfl, fun u h h' => ?_⟩, _, rfl, rfl, 5, [], rfl⟩
    obtain rfl | rfl | rfl | rfl : u = 14 ∨ u = 15 ∨ u = 16 ∨ u = 17 := by omega
    all_goals nofun
  obtain ⟨n, -, -, -, hrun⟩ := hsent (some false) 5 0 5 hclient
  obtain ⟨m, -, -, -, hrun'⟩ := hsent none 7 13 18 hcallback
  exact ⟨hfinished, by decide +kernel, ⟨n, hrun 44 (by decide) (by decide) hfinished⟩,
    m, hrun' 44 (by decide) (by decide +kernel) hfinished⟩

/-- In every run, a call of `isActive` answers at its return whether at some time
of the call a callback was waiting in the queue. So the answer `false` does not
say that everything sent has been run: at that time the object's thread may have
had one message in its hands, in `run()` or in the call of `wait_and_pop` that has
taken it out. Everything else that was pushed had been run. -/
theorem is_active_answers {cb : Callbacks F σ} {env : σ} (ρ : ActiveRun ι cb env) {i : ι}
    {a b : Nat} (h : Called ρ (.isActive i) i a b) :
    ∃ v t, (ρ.state (b + 1)).verdicts = (ρ.state b).verdicts ++ [(i, v)] ∧ a < t ∧ t < b
      ∧ (v = true ↔ (ρ.state t).mq_.contents ≠ [])
      ∧ (v = false →
          ((ρ.state t).thd_.holding ++ ((ρ.state t).mq_.thread none).taken).length ≤ 1
            ∧ (ρ.state t).mq_.pushed
              = (ρ.state t).ran.map .user ++ doneMessage (ρ.state t).done_
                ++ ((ρ.state t).thd_.holding ++ ((ρ.state t).mq_.thread none).taken)) := by
  obtain ⟨r, t, hat, htb, heffect, c, hret⟩ := h.spans.takes ⟨_, h.begins, rfl⟩
  have hlegal := ρ.queue.linearizes.legal heffect
  generalize hbefore : (ρ.queue.state t).contents = q at hlegal
  generalize (ρ.queue.state (t + 1)).contents = q' at hlegal
  cases hlegal with
  | popped hpops => cases hpops
  | empty =>
      have hbefore : (ρ.state t).mq_.contents = q := hbefore
      refine ⟨!q.isEmpty, t, ?_, hat, htb, ?_, fun hempty => ⟨(ρ.ok t).held_length_le, ?_⟩⟩
      · exact verdict h.returns hret
      · rw [hbefore]
        simp
      · obtain rfl : q = [] := by simpa using hempty
        rw [← SharedQueue.popped_append_contents (ρ.ok t).queue.stored.ordered, hbefore,
          (ρ.ok t).ran.popped]
        simp

/-- Callback 3 has been popped and not been run; then a client asks. -/
def askWhileHeld : List (ActiveLabel Bool Nat) :=
  .send false 3 :: pushing (some false) ++ .thd :: inCall none 5 ++ [.ret none]
    ++ .isActive true :: inCall (some true) 3 ++ [.ret (some true)]

/-- The answer is `false`, while `run()` has callback 3 in its hands and has run
nothing yet. -/
theorem is_active_answers_held :
    let ρ : ActiveRun Bool appending [] := .replay _ askWhileHeld rfl
    (ρ.state 18).verdicts = [(true, false)]
      ∧ ∃ t, 13 < t ∧ t < 17 ∧ (ρ.state t).mq_.contents = [] ∧ (ρ.state t).ran = []
        ∧ (ρ.state t).thd_.holding ++ ((ρ.state t).mq_.thread none).taken = [.user 3] := by
  intro ρ
  have hverdicts : (ρ.state 18).verdicts = [(true, false)] := by decide +kernel
  have hcalled : Called ρ (.isActive true) true 13 17 := by
    refine ⟨rfl, by decide, rfl, fun u h h' => ?_⟩
    obtain rfl | rfl | rfl : u = 14 ∨ u = 15 ∨ u = 16 := by omega
    all_goals nofun
  obtain ⟨v, t, hv, hat, htb, hwaiting, hheld⟩ := is_active_answers ρ hcalled
  obtain rfl : v = false := by
    have hlast : [(true, v)] = [(true, false)] := hv.symm.trans hverdicts
    simpa using hlast
  have hnone : (ρ.state t).mq_.contents = [] := by simpa using hwaiting
  have hduring : (ρ.state t).ran = [] ∧ (ρ.state t).done_ = false
      ∧ (ρ.state t).mq_.pushed = [.user 3] := by
    obtain rfl | rfl | rfl : t = 14 ∨ t = 15 ∨ t = 16 := by omega
    all_goals exact ⟨rfl, rfl, rfl⟩
  obtain ⟨hran, hdone, hpushed⟩ := hduring
  have hmessage := (hheld rfl).2
  rw [hran, hdone, hpushed] at hmessage
  exact ⟨hverdicts, t, hat, htb, hnone, hran, hmessage.symm⟩

end LockFreeRingBuf
