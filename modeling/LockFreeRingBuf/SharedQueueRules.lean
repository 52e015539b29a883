import LockFreeRingBuf.SharedQueue
import LockFreeRingBuf.Lib.Linearizable

/-!
# What the mutex and the condition variable ensure

`Locking` says who holds `m_` and who is blocked, `Stored` what stands in
`queue_` while a thread is between `front()` and `pop()`, and `Attended`
that no wakeup is lost: while a thread is blocked, as many other threads
as there are elements are about to notify one or to look at the queue
themselves. Each is kept by every step of every thread. The calls take
effect where they change `queue_`, or look at it and change nothing.
-/

namespace LockFreeRingBuf

open Transition Linearizability

variable {I T : Type}

/-- A thread that is here holds `m_`. -/
def QueueThread.holds : QueueThread T → Bool
  | .insert _ | .test _ | .front _ | .pop _ _ | .wait | .unlock _ _ => true
  | _ => false

/-- A thread that is here is going to notify a blocked one, or to look at the
queue before it can block. -/
def QueueThread.attends : QueueThread T → Bool
  | .unlock (.push _) _ | .notify _ | .relock => true
  | .test .waitAndPop | .front .waitAndPop | .pop .waitAndPop _ => true
  | _ => false

/-- The call pops. -/
def QueueCall.pops : QueueCall T → Bool
  | .tryAndPop | .waitAndPop => true
  | _ => false

/-- The answers of a call. -/
def QueueCall.Answers : QueueCall T → QueueAnswer T → Prop
  | .push _, a => a = .done
  | .tryAndPop, a => ∃ t, a = .popped t
  | .waitAndPop, a => ∃ t, a = .popped (some t)
  | .empty, a => ∃ b, a = .isEmpty b
  | .size, a => ∃ n, a = .size n

/-- The places a call passes through. -/
def QueueThread.Sound : QueueThread T → Prop
  | .test c => ∀ item, c ≠ .push item
  | .front c | .pop c _ => c.pops = true
  | .unlock c a | .ret c a => c.Answers a
  | _ => True

theorem QueueCall.locked_holds (c : QueueCall T) : c.locked.holds = true := by
  cases c <;> rfl

theorem QueueCall.tested_holds (c : QueueCall T) (queue_ : List T) :
    (c.tested queue_).holds = true := by
  cases c with
  | tryAndPop | waitAndPop =>
      dsimp only [QueueCall.tested]
      split <;> rfl
  | _ => rfl

theorem QueueCall.unlocked_holds (c : QueueCall T) (a : QueueAnswer T) :
    (c.unlocked a).holds = false := by
  cases c <;> rfl

theorem QueueCall.locked_sound (c : QueueCall T) : c.locked.Sound := by
  cases c with
  | push => exact trivial
  | _ => exact fun _ h => by cases h

theorem QueueCall.tested_sound (c : QueueCall T) (queue_ : List T) :
    (c.tested queue_).Sound := by
  cases c with
  | push => exact trivial
  | tryAndPop =>
      dsimp only [QueueCall.tested]
      split
      · exact ⟨_, rfl⟩
      · exact rfl
  | waitAndPop =>
      dsimp only [QueueCall.tested]
      split
      · exact trivial
      · exact rfl
  | empty | size => exact ⟨_, rfl⟩

theorem QueueCall.unlocked_sound {c : QueueCall T} {a : QueueAnswer T} (h : c.Answers a) :
    (c.unlocked a).Sound := by
  cases c with
  | push => exact trivial
  | _ => exact h

theorem QueueCall.popped_answers {c : QueueCall T} (h : c.pops = true) (t : T) :
    c.Answers (.popped (some t)) := by
  cases c with
  | tryAndPop | waitAndPop => exact ⟨_, rfl⟩
  | _ => cases h

namespace SharedQueue

variable {s s' : SharedQueue I T} {i j : I} {p : QueueThread T}

/-! ## Who holds the mutex -/

/-- Thread `i` may be at `p` while `m_` and `data_cond_` are as given. -/
structure Place (m_ : Option I) (data_cond_ : List I) (i : I) (p : QueueThread T) : Prop where
  holder : p.holds = true ↔ m_ = some i
  blocked : p = .blocked ↔ i ∈ data_cond_
  sound : p.Sound

structure Locking (s : SharedQueue I T) : Prop where
  place : ∀ i, Place s.m_ s.data_cond_ i (s.thread i)
  nodup : s.data_cond_.Nodup

namespace Place

variable {m_ : Option I} {data_cond_ : List I} {q : QueueThread T}

theorem running (hholds : p.holds = true ↔ m_ = some i) (hp : p ≠ .blocked)
    (hi : i ∉ data_cond_) (hsound : p.Sound) : Place m_ data_cond_ i p :=
  ⟨hholds, ⟨fun heq => absurd heq hp, fun hmem => absurd hmem hi⟩, hsound⟩

theorem not_mem (h : Place m_ data_cond_ i p) (hp : p ≠ .blocked) : i ∉ data_cond_ :=
  fun hmem => hp (h.blocked.mpr hmem)

theorem lock (h : Place none data_cond_ j q) (hj : j ≠ i) : Place (some i) data_cond_ j q := by
  refine ⟨h.holder.trans ⟨fun heq => ?_, fun heq => ?_⟩, h.blocked, h.sound⟩
  · cases heq
  · exact absurd (Option.some.inj heq).symm hj

theorem unlock (h : Place (some i) data_cond_ j q) (hj : j ≠ i) : Place none data_cond_ j q := by
  refine ⟨h.holder.trans ⟨fun heq => ?_, fun heq => ?_⟩, h.blocked, h.sound⟩
  · exact absurd (Option.some.inj heq).symm hj
  · cases heq

end Place

namespace Locking

theorem holds_iff (h : Locking s) : (s.thread i).holds = true ↔ s.m_ = some i :=
  (h.place i).holder

/-- Mutual exclusion. -/
theorem unique (h : Locking s) (hi : (s.thread i).holds = true)
    (hj : (s.thread j).holds = true) : i = j :=
  Option.some.inj ((h.holds_iff.mp hi).symm.trans (h.holds_iff.mp hj))

/-- A thread that notifies is not the one it wakes. -/
theorem ne_of_notify (h : Locking s) {item : T} (hi : s.thread i = .notify item)
    (hj : j ∈ s.data_cond_) : i ≠ j := by
  rintro rfl
  rw [(h.place i).blocked.mpr hj] at hi
  cases hi

end Locking

/-! ## What the mutex protects -/

/-- `queue_`, as the holder of the mutex leaves it at each place. -/
def Keeps (moved : T → T) (queue_ contents : List T) : QueueThread T → Prop
  | .front _ => queue_ = contents ∧ contents ≠ []
  | .pop _ t => ∃ rest, contents = t :: rest ∧ queue_ = moved t :: rest
  | .wait => queue_ = contents ∧ contents = []
  | _ => queue_ = contents

structure Stored (moved : T → T) (s : SharedQueue I T) : Prop where
  ordered : s.popped <+: s.pushed
  free : s.m_ = none → s.queue_ = s.contents
  held : ∀ i, s.m_ = some i → Keeps moved s.queue_ s.contents (s.thread i)

theorem popped_append_contents (h : s.popped <+: s.pushed) :
    s.popped ++ s.contents = s.pushed := by
  obtain ⟨rest, hrest⟩ := h
  rw [contents, ← hrest, List.drop_left]

theorem insert_contents (h : s.popped <+: s.pushed) (item : T) :
    (s.pushed ++ [item]).drop s.popped.length = s.contents ++ [item] :=
  List.drop_append_of_le_length h.length_le

theorem pop_contents {t : T} {rest : List T} (h : s.contents = t :: rest) :
    s.pushed.drop (s.popped ++ [t]).length = rest := by
  rw [List.length_append, List.length_singleton, ← List.drop_drop]
  exact congrArg (List.drop 1) h

theorem tested_keeps {moved : T → T} {c : QueueCall T} {queue_ contents : List T}
    (h : queue_ = contents) : Keeps moved queue_ contents (c.tested queue_) := by
  subst h
  cases c with
  | tryAndPop | waitAndPop =>
      dsimp only [QueueCall.tested]
      cases queue_ with
      | nil => first | exact rfl | exact ⟨rfl, rfl⟩
      | cons t rest => exact ⟨rfl, List.cons_ne_nil _ _⟩
  | _ => exact rfl

namespace Stored

variable {moved : T → T}

theorem holding (h : Stored moved s) (hlock : Locking s) (hi : (s.thread i).holds = true) :
    Keeps moved s.queue_ s.contents (s.thread i) :=
  h.held i (hlock.holds_iff.mp hi)

/-- Thread `i` holds the mutex afterwards. -/
theorem hold (hordered : s'.popped <+: s'.pushed) (hm : s'.m_ = some i)
    (hkeeps : Keeps moved s'.queue_ s'.contents (s'.thread i)) : Stored moved s' where
  ordered := hordered
  free hnone := by cases hnone.symm.trans hm
  held k hk := by
    obtain rfl := Option.some.inj (hk.symm.trans hm)
    exact hkeeps

theorem release (hordered : s'.popped <+: s'.pushed) (hm : s'.m_ = none)
    (hqueue : s'.queue_ = s'.contents) : Stored moved s' where
  ordered := hordered
  free _ := hqueue
  held k hk := by cases hk.symm.trans hm

end Stored

/-! ## Who will wake whom -/

/-- While a thread is blocked, `n` others are about to notify one, or to look at
the queue. -/
def Attended (n : Nat) (s : SharedQueue I T) : Prop :=
  s.data_cond_ ≠ [] →
    ∃ l : List I, l.Nodup ∧ (∀ i ∈ l, (s.thread i).attends = true) ∧ n ≤ l.length

theorem Attended.of_zero : Attended 0 s :=
  fun _ => ⟨[], List.nodup_nil, fun _ hk => absurd hk List.not_mem_nil, Nat.le_refl _⟩

/-! ## All of it -/

structure Ok (moved : T → T) (s : SharedQueue I T) : Prop where
  locking : Locking s
  stored : Stored moved s
  attended : Attended s.contents.length s

theorem ok_fresh (moved : T → T) : Ok moved (.fresh : SharedQueue I T) where
  locking := ⟨fun _ => ⟨iff_of_false Bool.false_ne_true nofun, iff_of_false nofun nofun, trivial⟩,
    List.nodup_nil⟩
  stored := ⟨List.prefix_rfl, fun _ => rfl, nofun⟩
  attended := .of_zero

/-! ## Steps of the threads -/

variable [DecidableEq I]

@[simp] theorem goto_self : (s.goto i p).thread i = p := Function.update_self ..

theorem goto_of_ne (h : j ≠ i) : (s.goto i p).thread j = s.thread j := Function.update_of_ne h ..

/-- What the step of one thread leaves as it was for that thread, it leaves as it
was for all. -/
theorem update_eq {α : Type} (f : QueueThread T → α) {k : I}
    (hthread : s'.thread = Function.update s.thread k p) (h : i = k → f p = f (s.thread k)) :
    f (s'.thread i) = f (s.thread i) := by
  rw [hthread]
  by_cases heq : i = k
  · subst heq
    rw [Function.update_self]
    exact h rfl
  · rw [Function.update_of_ne heq]

namespace Locking

/-- Thread `i` goes on to `p`, and the mutex and the blocked threads change in a
way that leaves every other thread its place. -/
theorem goto (h : Locking s) (hthread : s'.thread = Function.update s.thread i p)
    (hi : Place s'.m_ s'.data_cond_ i p) (hnodup : s'.data_cond_.Nodup)
    (hother : ∀ (j : I) (q : QueueThread T), j ≠ i → Place s.m_ s.data_cond_ j q →
      Place s'.m_ s'.data_cond_ j q) : Locking s' where
  place j := by
    rw [hthread]
    by_cases hj : j = i
    · subst hj
      rwa [Function.update_self]
    · rw [Function.update_of_ne hj]
      exact hother j _ hj (h.place j)
  nodup := hnodup

/-- The mutex and the blocked threads stay as they are. -/
theorem stay (h : Locking s) (hthread : s'.thread = Function.update s.thread i p)
    (hm : s'.m_ = s.m_) (hd : s'.data_cond_ = s.data_cond_) (hold : s.thread i ≠ .blocked)
    (hp : p ≠ .blocked) (hholds : p.holds = (s.thread i).holds) (hsound : p.Sound) :
    Locking s' := by
  refine h.goto hthread (.running ?_ hp ?_ hsound) (by rw [hd]; exact h.nodup) ?_
  · rw [hholds, hm]
    exact h.holds_iff
  · rw [hd]
    exact (h.place i).not_mem hold
  · intro j q _ hq
    rwa [hm, hd]

theorem lock (h : Locking s) (hm : s.m_ = none) (hold : s.thread i ≠ .blocked)
    (hholds : p.holds = true) (hsound : p.Sound) :
    Locking ({ s with m_ := some i }.goto i p) := by
  have hp : p ≠ .blocked := fun heq => by rw [heq] at hholds; cases hholds
  refine h.goto rfl (.running ?_ hp ((h.place i).not_mem hold) hsound) h.nodup ?_
  · exact ⟨fun _ => rfl, fun _ => hholds⟩
  · intro j q hj hq
    rw [hm] at hq
    exact hq.lock hj

theorem unlock (h : Locking s) (hold : (s.thread i).holds = true) (hp : p ≠ .blocked)
    (hholds : p.holds = false) (hsound : p.Sound) :
    Locking ({ s with m_ := none }.goto i p) := by
  have hi : i ∉ s.data_cond_ := (h.place i).not_mem fun heq => by rw [heq] at hold; cases hold
  refine h.goto rfl (.running ?_ hp hi hsound) h.nodup ?_
  · rw [hholds]
    exact iff_of_false Bool.false_ne_true nofun
  · intro j q hj hq
    rw [h.holds_iff.mp hold] at hq
    exact hq.unlock hj

theorem block (h : Locking s) (hold : s.thread i = .wait) :
    Locking ({ s with m_ := none, data_cond_ := s.data_cond_ ++ [i] }.goto i .blocked) := by
  have hholds : (s.thread i).holds = true := by rw [hold]; rfl
  have hi : i ∉ s.data_cond_ := (h.place i).not_mem fun heq => by rw [hold] at heq; cases heq
  refine h.goto rfl ⟨iff_of_false Bool.false_ne_true nofun, ?_, trivial⟩ ?_ ?_
  · exact ⟨fun _ => List.mem_append_right _ (List.mem_singleton_self i), fun _ => rfl⟩
  · refine List.nodup_append.mpr ⟨h.nodup, List.nodup_singleton i, fun a ha b hb heq => ?_⟩
    obtain rfl := List.mem_singleton.mp hb
    exact hi (heq ▸ ha)
  · intro j q hj hq
    rw [h.holds_iff.mp hholds] at hq
    refine ⟨(hq.unlock hj).holder, hq.blocked.trans ?_, hq.sound⟩
    show j ∈ s.data_cond_ ↔ j ∈ s.data_cond_ ++ [i]
    rw [List.mem_append, List.mem_singleton]
    exact ⟨.inl, fun hmem => hmem.resolve_right hj⟩

theorem wake (h : Locking s) (hj : j ∈ s.data_cond_) : Locking (s.wake j) := by
  have hblocked : s.thread j = .blocked := (h.place j).blocked.mpr hj
  have hholds := (h.place j).holder
  rw [hblocked] at hholds
  refine h.goto rfl (.running hholds (fun heq => by cases heq) ?_ trivial) (h.nodup.erase j) ?_
  · exact h.nodup.not_mem_erase
  · intro i q hi hq
    exact ⟨hq.holder, hq.blocked.trans (List.mem_erase_of_ne hi).symm, hq.sound⟩

end Locking

theorem wake_thread_of_ne (hi : i ≠ j) : (s.wake j).thread i = s.thread i :=
  Function.update_of_ne hi ..

theorem Locking.step {moved : T → T} {l : QueueLabel I T} (h : Locking s)
    (hmove : s.Moves moved l s') : Locking s' := by
  cases hmove with
  | call hi | ret hi =>
      exact h.stay rfl rfl rfl (by simp [hi]) (by simp) (by rw [hi]; rfl) trivial
  | notifyNone hi => exact h.stay rfl rfl rfl (by simp [hi]) (by simp) (by rw [hi]; rfl) rfl
  | insert hi => exact h.stay rfl rfl rfl (by simp [hi]) (by simp) (by rw [hi]; rfl) rfl
  | @lock i c hi hm => exact h.lock hm (by simp [hi]) c.locked_holds c.locked_sound
  | relock hi hm => exact h.lock hm (by simp [hi]) rfl fun _ heq => by cases heq
  | @test i c hi =>
      have hp : c.tested s.queue_ ≠ .blocked := fun heq => by
        have hholds := c.tested_holds s.queue_
        rw [heq] at hholds
        cases hholds
      exact h.stay rfl rfl rfl (by simp [hi]) hp (by rw [hi, c.tested_holds]; rfl)
        (c.tested_sound _)
  | @front i c t rest hi =>
      have hpops : c.pops = true := by
        have hsound := (h.place i).sound
        rwa [hi] at hsound
      exact h.stay rfl rfl rfl (by simp [hi]) (by simp) (by rw [hi]; rfl) hpops
  | @pop i c t t' rest hi =>
      have hpops : c.pops = true := by
        have hsound := (h.place i).sound
        rwa [hi] at hsound
      exact h.stay rfl rfl rfl (by simp [hi]) (by simp) (by rw [hi]; rfl)
        (QueueCall.popped_answers hpops t)
  | wait hi => exact h.block hi
  | @unlock i c a hi =>
      have hp : c.unlocked a ≠ .blocked := by cases c <;> simp [QueueCall.unlocked]
      have hanswers : c.Answers a := by
        have hsound := (h.place i).sound
        rwa [hi] at hsound
      exact h.unlock (by rw [hi]; rfl) hp (c.unlocked_holds a) (QueueCall.unlocked_sound hanswers)
  | @notifyOne i item j hi hj =>
      have hi' : (s.wake j).thread i = .notify item := by
        rw [wake_thread_of_ne (h.ne_of_notify hi hj), hi]
      exact (h.wake hj).stay rfl rfl rfl (by simp [hi']) (by simp) (by rw [hi']; rfl) rfl
  | wakeup hj => exact h.wake hj

namespace Stored

variable {moved : T → T}

/-- A step of a thread that does not hold the mutex. -/
theorem other (h : Stored moved s) (hlock : Locking s) (hi : (s.thread i).holds = false)
    (hthread : s'.thread = Function.update s.thread i p) (hm : s'.m_ = s.m_)
    (hqueue : s'.queue_ = s.queue_) (hpushed : s'.pushed = s.pushed)
    (hpopped : s'.popped = s.popped) : Stored moved s' where
  ordered := by rw [hpushed, hpopped]; exact h.ordered
  free hnone := by
    rw [contents, hqueue, hpushed, hpopped]
    exact h.free (hm.symm.trans hnone)
  held k hk := by
    have hold : s.m_ = some k := hm.symm.trans hk
    have hne : k ≠ i := by
      rintro rfl
      rw [hlock.holds_iff.mpr hold] at hi
      cases hi
    rw [contents, hqueue, hpushed, hpopped, hthread, Function.update_of_ne hne]
    exact h.held k hold

theorem step {l : QueueLabel I T} (h : Stored moved s) (hlock : Locking s)
    (hmove : s.Moves moved l s') : Stored moved s' := by
  have hsplit := popped_append_contents h.ordered
  cases hmove with
  | call hi | ret hi | notifyNone hi =>
      exact h.other hlock (by rw [hi]; rfl) rfl rfl rfl rfl rfl
  | wakeup hj =>
      exact h.other hlock (by rw [(hlock.place _).blocked.mpr hj]; rfl) rfl rfl rfl rfl rfl
  | @notifyOne i item j hi hj =>
      have hwake : Stored moved (s.wake j) :=
        h.other hlock (by rw [(hlock.place j).blocked.mpr hj]; rfl) rfl rfl rfl rfl rfl
      refine hwake.other (hlock.wake hj) ?_ rfl rfl rfl rfl rfl
      rw [wake_thread_of_ne (hlock.ne_of_notify hi hj), hi]
      rfl
  | @lock i c hi hm =>
      refine .hold h.ordered rfl ?_
      rw [goto_self]
      cases c <;> exact h.free hm
  | relock hi hm =>
      refine .hold h.ordered rfl ?_
      rw [goto_self]
      exact h.free hm
  | @insert i item hi =>
      have hkeeps := h.holding hlock (i := i) (by rw [hi]; rfl)
      rw [hi] at hkeeps
      refine .hold (h.ordered.trans (List.prefix_append _ _))
        (hlock.holds_iff.mp (by rw [hi]; rfl)) ?_
      rw [goto_self]
      show s.queue_ ++ [item] = (s.pushed ++ [item]).drop s.popped.length
      rw [insert_contents h.ordered, hkeeps]
  | @test i c hi =>
      have hkeeps := h.holding hlock (i := i) (by rw [hi]; rfl)
      rw [hi] at hkeeps
      refine .hold h.ordered (hlock.holds_iff.mp (by rw [hi]; rfl)) ?_
      rw [goto_self]
      exact tested_keeps hkeeps
  | @front i c t rest hi hqueue =>
      have hkeeps := h.holding hlock (i := i) (by rw [hi]; rfl)
      rw [hi] at hkeeps
      refine .hold h.ordered (hlock.holds_iff.mp (by rw [hi]; rfl)) ?_
      rw [goto_self]
      exact ⟨rest, hkeeps.1.symm.trans hqueue, rfl⟩
  | @pop i c t t' rest hi hqueue =>
      have hkeeps := h.holding hlock (i := i) (by rw [hi]; rfl)
      rw [hi] at hkeeps
      obtain ⟨rest', hcontents, hqueue'⟩ := hkeeps
      obtain ⟨-, rfl⟩ := List.cons.inj (hqueue.symm.trans hqueue')
      have hpushed : (s.popped ++ [t]) ++ rest = s.pushed := by
        rw [← hsplit, hcontents, List.append_assoc]
        rfl
      refine .hold ⟨rest, hpushed⟩ (hlock.holds_iff.mp (by rw [hi]; rfl)) ?_
      rw [goto_self]
      show rest = s.pushed.drop (s.popped ++ [t]).length
      rw [pop_contents hcontents]
  | @wait i hi =>
      have hkeeps := h.holding hlock (i := i) (by rw [hi]; rfl)
      rw [hi] at hkeeps
      exact .release h.ordered rfl hkeeps.1
  | @unlock i c a hi =>
      have hkeeps := h.holding hlock (i := i) (by rw [hi]; rfl)
      rw [hi] at hkeeps
      exact .release h.ordered rfl hkeeps

end Stored

namespace Attended

variable {n : Nat}

/-- Thread `i` goes on and attends if it did. -/
theorem goto (h : Attended n s) (hthread : s'.thread = Function.update s.thread i p)
    (hd : s'.data_cond_ ≠ [] → s.data_cond_ ≠ [])
    (hattends : (s.thread i).attends = true → p.attends = true) : Attended n s' := by
  intro hblocked
  obtain ⟨l, hnodup, hl, hlen⟩ := h (hd hblocked)
  refine ⟨l, hnodup, fun k hk => ?_, hlen⟩
  rw [hthread]
  by_cases hki : k = i
  · subst hki
    rw [Function.update_self]
    exact hattends (hl k hk)
  · rw [Function.update_of_ne hki]
    exact hl k hk

/-- A thread that did not attend does so now. -/
theorem join (h : Attended n s) (hthread : s'.thread = Function.update s.thread i p)
    (hd : s'.data_cond_ ≠ [] → s.data_cond_ ≠ []) (hold : (s.thread i).attends = false)
    (hattends : p.attends = true) : Attended (n + 1) s' := by
  intro hblocked
  obtain ⟨l, hnodup, hl, hlen⟩ := h (hd hblocked)
  have hi : i ∉ l := fun hmem => by rw [hl i hmem] at hold; cases hold
  refine ⟨i :: l, List.nodup_cons.mpr ⟨hi, hnodup⟩, fun k hk => ?_, Nat.succ_le_succ hlen⟩
  rw [hthread]
  rcases List.mem_cons.mp hk with rfl | hk
  · rwa [Function.update_self]
  · have hki : k ≠ i := fun heq => hi (heq ▸ hk)
    rw [Function.update_of_ne hki]
    exact hl k hk

/-- A thread that has popped or notified need not attend any longer. -/
theorem leave (h : Attended (n + 1) s) (hthread : s'.thread = Function.update s.thread i p)
    (hd : s'.data_cond_ ≠ [] → s.data_cond_ ≠ []) : Attended n s' := by
  intro hblocked
  obtain ⟨l, hnodup, hl, hlen⟩ := h (hd hblocked)
  refine ⟨l.erase i, hnodup.erase i, fun k hk => ?_, ?_⟩
  · have hki : k ≠ i := fun heq => hnodup.not_mem_erase (heq ▸ hk)
    rw [hthread, Function.update_of_ne hki]
    exact hl k (List.mem_of_mem_erase hk)
  · rw [List.length_erase]
    split <;> omega

theorem step {moved : T → T} {l : QueueLabel I T} (h : Attended s.contents.length s)
    (hlock : Locking s) (hstored : Stored moved s) (hmove : s.Moves moved l s') :
    Attended s'.contents.length s' := by
  cases hmove with
  | call hi | lock hi | ret hi => exact h.goto rfl id (by rw [hi]; nofun)
  | relock hi hm => exact h.goto rfl id fun _ => rfl
  | @insert i item hi =>
      show Attended ((s.pushed ++ [item]).drop s.popped.length).length _
      rw [insert_contents hstored.ordered, List.length_append]
      exact h.join rfl id (by rw [hi]; rfl) rfl
  | @test i c hi =>
      have hkeeps := hstored.holding hlock (i := i) (by rw [hi]; rfl)
      rw [hi] at hkeeps
      cases hempty : s.queue_ with
      | nil =>
          have hcontents : s.contents = [] := hkeeps.symm.trans hempty
          show Attended s.contents.length _
          rw [hcontents]
          exact .of_zero
      | cons t rest =>
          refine h.goto rfl id ?_
          rw [hi]
          cases c with
          | waitAndPop => exact id
          | _ => nofun
  | @front i c t rest hi hqueue =>
      refine h.goto rfl id ?_
      rw [hi]
      cases c <;> exact id
  | @pop i c t t' rest hi hqueue =>
      have hkeeps := hstored.holding hlock (i := i) (by rw [hi]; rfl)
      rw [hi] at hkeeps
      obtain ⟨rest', hcontents, -⟩ := hkeeps
      show Attended (s.pushed.drop (s.popped ++ [t]).length).length _
      rw [pop_contents hcontents]
      rw [hcontents, List.length_cons] at h
      exact h.leave rfl id
  | @wait i hi =>
      have hkeeps := hstored.holding hlock (i := i) (by rw [hi]; rfl)
      rw [hi] at hkeeps
      show Attended s.contents.length _
      rw [hkeeps.2]
      exact .of_zero
  | @unlock i c a hi =>
      refine h.goto rfl id ?_
      rw [hi]
      cases c <;> exact id
  | notifyNone hi hnone => exact fun hblocked => absurd hnone hblocked
  | @notifyOne i item j hi hj =>
      have hblocked : s.thread j = .blocked := (hlock.place j).blocked.mpr hj
      have hwake : Attended (s.contents.length + 1) (s.wake j) :=
        h.join rfl (fun _ => List.ne_nil_of_mem hj) (by rw [hblocked]; rfl) rfl
      exact hwake.leave rfl id
  | @wakeup j hj => exact h.goto rfl (fun _ => List.ne_nil_of_mem hj) fun _ => rfl

end Attended

/-! ## Every reachable state -/

theorem Ok.step {moved : T → T} {l : QueueLabel I T} (h : Ok moved s)
    (hmove : s.Moves moved l s') : Ok moved s' :=
  ⟨h.locking.step hmove, h.stored.step h.locking hmove,
    h.attended.step h.locking h.stored hmove⟩

theorem ok_reachable {moved : T → T} (h : (queueSystem I moved).Reachable s) : Ok moved s := by
  refine h.invariant (I := Ok moved) ?_ ?_
  · rintro s rfl
    exact ok_fresh moved
  · exact fun l u u' _ hu hstep => hu.step (step_moves hstep)

/-! ## The queue never gets stuck -/

/-- Thread `i`, inside a call, can take its next step, or notify. -/
def CanMove (moved : T → T) (s : SharedQueue I T) (i : I) : Prop :=
  (s.threadStep moved i).isSome ∨ ∃ woken, (SharedQueue.step moved (.notify i woken) s).isSome

/-- Wherever it is, the holder of the mutex can go on. -/
theorem Ok.holder_moves {moved : T → T} (h : Ok moved s) (hi : (s.thread i).holds = true) :
    (s.threadStep moved i).isSome := by
  have hkeeps := h.stored.holding h.locking hi
  unfold threadStep
  cases hp : s.thread i with
  | front c =>
      rw [hp] at hkeeps
      cases hqueue : s.queue_ with
      | nil => exact absurd (hkeeps.1.symm.trans hqueue) hkeeps.2
      | cons => rfl
  | pop c t =>
      rw [hp] at hkeeps
      obtain ⟨rest, -, hqueue⟩ := hkeeps
      rw [hqueue]
      rfl
  | insert | test | wait | unlock => rfl
  | idle | lock | blocked | relock | notify | ret => rw [hp] at hi; cases hi

theorem notify_moves {moved : T → T} {item : T} (hi : s.thread i = .notify item) :
    ∃ woken, (SharedQueue.step moved (.notify i woken) s).isSome := by
  cases hd : s.data_cond_ with
  | nil => exact ⟨none, by simp [SharedQueue.step, hi, hd]⟩
  | cons j rest => exact ⟨some j, by simp [SharedQueue.step, hi, hd]⟩

/-- While the mutex is free every thread inside a call can go on, if it is not
blocked. -/
theorem Ok.canMove_of_free {moved : T → T} (h : Ok moved s) (hm : s.m_ = none)
    (hidle : s.thread i ≠ .idle) (hblocked : s.thread i ≠ .blocked) : CanMove moved s i := by
  cases hi : s.thread i with
  | idle => exact absurd hi hidle
  | blocked => exact absurd hi hblocked
  | notify item => exact .inr (notify_moves hi)
  | lock | relock | ret =>
      left
      unfold threadStep
      simp [hi, hm]
  | insert | test | front | pop | wait | unlock =>
      have hholds := h.locking.holds_iff.mp (by rw [hi]; rfl)
      cases hm.symm.trans hholds

/-- As long as a call is in progress, some thread can go on, unless every such
call is a `wait_and_pop` that waits for an element of an empty queue. -/
theorem Ok.canMove {moved : T → T} (h : Ok moved s) (hi : s.thread i ≠ .idle) :
    (∃ j, CanMove moved s j) ∨ s.thread i = .blocked ∧ s.contents = [] := by
  cases hm : s.m_ with
  | some k => exact .inl ⟨k, .inl (h.holder_moves (h.locking.holds_iff.mpr hm))⟩
  | none =>
      by_cases hblocked : s.thread i = .blocked
      · by_cases hcontents : s.contents = []
        · exact .inr ⟨hblocked, hcontents⟩
        · have hd : s.data_cond_ ≠ [] :=
            List.ne_nil_of_mem ((h.locking.place i).blocked.mp hblocked)
          obtain ⟨l, -, hl, hlen⟩ := h.attended hd
          have hpos : 0 < s.contents.length := List.length_pos_of_ne_nil hcontents
          obtain ⟨k, hk⟩ := List.exists_mem_of_length_pos (Nat.lt_of_lt_of_le hpos hlen)
          have hattends := hl k hk
          refine .inl ⟨k, h.canMove_of_free hm (fun heq => ?_) fun heq => ?_⟩
          · rw [heq] at hattends; cases hattends
          · rw [heq] at hattends; cases hattends
      · exact .inl ⟨i, h.canMove_of_free hm hi hblocked⟩

end SharedQueue

/-- In every reachable state, whatever threads call the queue: at most one thread
holds the mutex; what was popped is what was pushed first, in order, and while
the mutex is free the rest stands in `queue_`; `front()` and `pop()` find an
element; while a thread is blocked, as many others as there are elements are
about to notify one or to look at the queue; and as long as a call is in
progress some thread can go on, unless all such calls wait for an element of an
empty queue. -/
theorem shared_queue_monitor [DecidableEq I] {moved : T → T} {s : SharedQueue I T}
    (h : (queueSystem I moved).Reachable s) :
    (∀ i j, (s.thread i).holds = true → (s.thread j).holds = true → i = j)
      ∧ s.popped <+: s.pushed ∧ (s.m_ = none → s.popped ++ s.queue_ = s.pushed)
      ∧ (∀ i c, s.thread i = .front c → s.queue_ ≠ [])
      ∧ (∀ i c t, s.thread i = .pop c t → s.queue_ ≠ [])
      ∧ (s.data_cond_ ≠ [] → ∃ l : List I, l.Nodup ∧ (∀ i ∈ l, (s.thread i).attends = true)
          ∧ s.contents.length ≤ l.length)
      ∧ ∀ i, s.thread i ≠ .idle →
          (∃ j, s.CanMove moved j) ∨ s.thread i = .blocked ∧ s.contents = [] := by
  have hok := SharedQueue.ok_reachable h
  refine ⟨fun i j hi hj => hok.locking.unique hi hj, hok.stored.ordered, fun hm => ?_,
    fun i c hi => ?_, fun i c t hi => ?_, hok.attended, fun i hi => hok.canMove hi⟩
  · rw [hok.stored.free hm]
    exact SharedQueue.popped_append_contents hok.stored.ordered
  · have hkeeps := hok.stored.holding hok.locking (i := i) (by rw [hi]; rfl)
    rw [hi] at hkeeps
    rw [hkeeps.1]
    exact hkeeps.2
  · have hkeeps := hok.stored.holding hok.locking (i := i) (by rw [hi]; rfl)
    rw [hi] at hkeeps
    obtain ⟨rest, -, hqueue⟩ := hkeeps
    rw [hqueue]
    exact List.cons_ne_nil _ _

/-- A thread blocked in `wait_and_pop`, and another in `push`, its element in
the queue and its notification to come. -/
theorem shared_queue_monitor_two :
    let ρ : Run (queueSystem Bool (id : Nat → Nat)) := .replay _ [.call false .waitAndPop,
      .step false, .step false, .step false, .call true (.push 5), .step true, .step true] rfl
    (ρ.state 7).data_cond_ = [false] ∧ (ρ.state 7).contents = [5]
      ∧ ∃ i, ((ρ.state 7).thread i).attends = true := by
  intro ρ
  obtain ⟨-, -, -, -, -, hattended, -⟩ := shared_queue_monitor (ρ.reachable 7)
  obtain ⟨l, -, hl, hlen⟩ := hattended (by decide)
  obtain ⟨i, hi⟩ := List.exists_mem_of_length_pos (Nat.lt_of_lt_of_le (by decide) hlen)
  exact ⟨by decide, by decide, i, hl i hi⟩

end LockFreeRingBuf
