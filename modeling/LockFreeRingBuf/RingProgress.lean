import LockFreeRingBuf.RingCalls
import LockFreeRingBuf.Lib.Fairness
import Mathlib.Tactic.IntervalCases

/-!
# How long a call takes

"Pushing and popping is wait-free": a call that does not spin ends after a
number of its thread's own accesses that the call alone determines,
whatever the other thread does meanwhile. `wait_push` and `reserve_1` spin
while the ring is full. Only their own thread fills the ring, so once there
is room it stays; the pass in progress may still have read the old `out`,
but the pass after it succeeds.
-/

namespace LockFreeRingBuf

open Resumption Transition

variable {T : Type} {elem : Element T} {capacity : Capacity}

/-! ## The length of each program -/

/-- The accesses of one pass of a call, at most. -/
def ProducerCall.accesses : ProducerCall T → Nat
  | .tryPush _ => 6
  | .waitPush _ => 6
  | .push _ n => n.toNat + 5
  | .tryReserve1 => 3
  | .reserve1 => 3
  | .finish1 => 2

def ConsumerCall.accesses : ConsumerCall T → Nat
  | .pop _ => 6
  | .popBulk _ n => n.toNat + 5
  | .peek _ => 3
  | .consume _ => 2

/-- The call has a `while` that spins. -/
def ProducerCall.spins : ProducerCall T → Bool
  | .waitPush _ => true
  | .reserve1 => true
  | _ => false

/-- The turns of the call once there is room, at most: a pass, and before it the
way back from one that has failed. -/
def ProducerCall.turns (c : ProducerCall T) : Nat := c.accesses + if c.spins then 1 else 0

theorem min_toNat_add_sub (len x : Unsigned) :
    (min_ len x).toNat + (len - min_ len x).toNat = len.toNat := by
  have hle : (min_ len x).toNat ≤ len.toNat := by
    rw [min_toNat]
    exact Nat.min_le_left _ _
  rw [BitVec.toNat_sub_of_le (BitVec.le_def.mpr hle)]
  omega

theorem readSlot_ends (i : Nat) : (readSlot i : QueueProg T T).Ends (fun _ => True) 1 :=
  fun _ => trivial

theorem moveSlot_ends (i : Nat) : (moveSlot i : QueueProg T T).Ends (fun _ => True) 1 :=
  fun _ => trivial

theorem storeSlots_ends (ret : Nat → T) (dst src n : Nat) :
    (storeSlots ret dst src n).Ends (fun _ => True) n := by
  induction n generalizing dst src with
  | zero => trivial
  | succ n ih => exact fun _ => ih _ _

theorem loadSlots_ends {fetch : Nat → QueueProg T T}
    (hfetch : ∀ i, (fetch i).Ends (fun _ => True) 1) (ret : Nat → T) (dst src n : Nat) :
    (loadSlots fetch ret dst src n).Ends (fun _ => True) n := by
  induction n generalizing ret dst src with
  | zero => trivial
  | succ n ih =>
      have hends := (hfetch src).bind fun t _ => ih (setSlot ret dst t) (dst + 1) (src + 1)
      rwa [Nat.add_comm] at hends

theorem pushWith_ends (ret : Nat → T) (n : CInt) :
    (pushWith capacity (storeSlots ret) n).Ends (fun _ => True) (n.toNat + 5) := by
  simp only [pushWith, readIn_bind, readOut_bind, addIn_bind, Prog.pure_eq]
  intro in_ out
  dsimp only
  generalize hlen : min_ n (capacity.val - in_ + out) = len
  have hle : len.toNat ≤ n.toNat := by
    rw [← hlen, min_toNat]
    exact Nat.min_le_left _ _
  split
  · exact (Prog.ends_ret _).mpr trivial
  · intro in_
    dsimp only
    generalize hl : min_ len (capacity.val - (in_ &&& capacity.mask)) = l
    have hsum : l.toNat + (len - l).toNat = len.toNat := by
      rw [← hl]
      exact min_toNat_add_sub _ _
    have hcopy : (storeSlots ret (in_ &&& capacity.mask).toNat 0 l.toNat >>= fun _ =>
        storeSlots ret 0 l.toNat (len - l).toNat >>= fun _ =>
          .act .readIn fun in_ => .act (.writeIn (in_ + len)) fun _ => .ret len).Ends
        (fun _ => True) (l.toNat + ((len - l).toNat + 2)) :=
      (storeSlots_ends _ _ _ _).bind fun _ _ => (storeSlots_ends _ _ _ _).bind fun _ _ =>
        fun _ _ => (Prog.ends_ret _).mpr trivial
    exact hcopy.mono (n := n.toNat + 2) (by omega)

theorem popWith_ends {fetch : Nat → QueueProg T T}
    (hfetch : ∀ i, (fetch i).Ends (fun _ => True) 1) (ret : Nat → T) (n : CInt) :
    (popWith capacity (loadSlots fetch) ret n).Ends (fun _ => True) (n.toNat + 5) := by
  simp only [popWith, readIn_bind, readOut_bind, addOut_bind, Prog.pure_eq]
  intro in_ out
  dsimp only
  generalize hlen : min_ n (in_ - out) = len
  have hle : len.toNat ≤ n.toNat := by
    rw [← hlen, min_toNat]
    exact Nat.min_le_left _ _
  split
  · exact (Prog.ends_ret _).mpr trivial
  · intro out
    dsimp only
    generalize hl : min_ len (capacity.val - (out &&& capacity.mask)) = l
    have hsum : l.toNat + (len - l).toNat = len.toNat := by
      rw [← hl]
      exact min_toNat_add_sub _ _
    have hcopy : (loadSlots fetch ret 0 (out &&& capacity.mask).toNat l.toNat >>= fun ret =>
        loadSlots fetch ret l.toNat 0 (len - l).toNat >>= fun ret =>
          .act .readOut fun out => .act (.writeOut (out + len)) fun _ => .ret (len, ret)).Ends
        (fun _ => True) (l.toNat + ((len - l).toNat + 2)) :=
      (loadSlots_ends hfetch _ _ _ _).bind fun _ _ => (loadSlots_ends hfetch _ _ _ _).bind
        fun _ _ => fun _ _ => (Prog.ends_ret _).mpr trivial
    exact hcopy.mono (n := n.toNat + 2) (by omega)

/-- One pass of a call ends, and with an answer unless the call spins. -/
theorem ProducerCall.body_ends (elem : Element T) (capacity : Capacity) (c : ProducerCall T) :
    (c.body elem capacity).Ends (fun ans => c.spins = true ∨ ans.isSome) c.accesses := by
  cases c with
  | tryPush t =>
      intro in_ out
      dsimp only [Prog.bind]
      split
      · exact (Prog.ends_ret _).mpr (.inr rfl)
      · exact fun _ _ _ _ => (Prog.ends_ret _).mpr (.inr rfl)
  | waitPush t =>
      intro in_ out
      dsimp only [Prog.bind]
      split
      · exact (Prog.ends_ret _).mpr (.inl rfl)
      · exact fun _ _ _ _ => (Prog.ends_ret _).mpr (.inl rfl)
  | push ret n =>
      have hpush : SpscQueue.push elem capacity ret n = pushWith capacity (storeSlots ret) n := by
        simp only [SpscQueue.push, SpscWorker.pushTrivial, SpscWorker.pushNontrivial, ite_self]
      have hends : (pushWith capacity (storeSlots ret) n >>= fun r =>
          .ret (some (ProducerAnswer.count r))).Ends
          (fun ans => (ProducerCall.push ret n).spins = true ∨ ans.isSome) (n.toNat + 5 + 0) :=
        (pushWith_ends ret n).bind fun _ _ => (Prog.ends_ret _).mpr (.inr rfl)
      simp only [ProducerCall.body, hpush]
      exact hends
  | tryReserve1 =>
      intro in_ out
      dsimp only [Prog.bind]
      split
      · exact (Prog.ends_ret _).mpr (.inr rfl)
      · exact fun _ => (Prog.ends_ret _).mpr (.inr rfl)
  | reserve1 =>
      intro in_ out
      dsimp only [Prog.bind]
      split
      · exact (Prog.ends_ret _).mpr (.inl rfl)
      · exact fun _ => (Prog.ends_ret _).mpr (.inl rfl)
  | finish1 => exact fun _ _ => (Prog.ends_ret _).mpr (.inr rfl)

theorem ConsumerCall.body_ends (elem : Element T) (capacity : Capacity) (c : ConsumerCall T) :
    (c.body elem capacity).Ends (fun _ => True) c.accesses := by
  cases c with
  | pop t =>
      intro in_ out
      dsimp only [Prog.bind]
      split
      · exact (Prog.ends_ret _).mpr trivial
      · exact fun _ _ _ _ => (Prog.ends_ret _).mpr trivial
  | popBulk ret n =>
      have hends : (SpscQueue.popBulk elem capacity ret n).Ends (fun _ => True) (n.toNat + 5) := by
        simp only [SpscQueue.popBulk, SpscWorker.popTrivial, SpscWorker.popNontrivial]
        split
        · exact popWith_ends readSlot_ends ret n
        · exact popWith_ends moveSlot_ends ret n
      exact hends.bind (n := 0) fun _ _ => (Prog.ends_ret _).mpr trivial
  | peek max => exact fun _ _ _ => (Prog.ends_ret _).mpr trivial
  | consume n => exact fun _ _ => (Prog.ends_ret _).mpr trivial

/-- A pass of a spinning call reads both counters, and succeeds if its test
finds room. -/
theorem ProducerCall.spinning_body (elem : Element T) (capacity : Capacity)
    {c : ProducerCall T} (hc : c.spins = true) :
    ∃ (k : Unsigned → Unsigned → QueueProg T (Option ProducerAnswer)) (m : Nat),
      (c.body elem capacity = .act .readIn fun in_ => .act .readOut (k in_))
        ∧ c.accesses = m + 2
        ∧ (∀ in_ out, capacity.val - in_ + out = 0#32 → k in_ out = .ret none)
        ∧ ∀ in_ out, capacity.val - in_ + out ≠ 0#32 →
          (k in_ out).Ends (fun ans => ans.isSome) m := by
  cases c with
  | waitPush t =>
      refine ⟨_, 4, rfl, rfl, fun in_ out hfull => ?_, fun in_ out hroom => ?_⟩
      · dsimp only [Prog.bind]
        rw [if_pos hfull]
        rfl
      · dsimp only [Prog.bind]
        rw [if_neg hroom]
        exact fun _ _ _ _ => (Prog.ends_ret _).mpr rfl
  | reserve1 =>
      refine ⟨_, 1, rfl, rfl, fun in_ out hfull => ?_, fun in_ out hroom => ?_⟩
      · dsimp only [Prog.bind]
        rw [if_pos hfull]
        rfl
      · dsimp only [Prog.bind]
        rw [if_neg hroom]
        exact fun _ => (Prog.ends_ret _).mpr rfl
  | _ => cases hc

/-! ## A call in progress -/

/-- A slot is free. -/
def Config.Roomy (capacity : Capacity) (r : Config T) : Prop :=
  r.shared.published.length < r.shared.consumed.length + capacity.size

/-- The producer is in call `c`, which it leaves after at most `m` more accesses
if there is room: for certain once the test for room is passed, and before
that if the test finds room. -/
inductive Config.InPass (elem : Element T) (capacity : Capacity) (c : ProducerCall T)
    (r : Config T) : Bool → Nat → Prop
  | certain {offer p m} : r.producer = .running c offer p → p.Ends (fun ans => ans.isSome) m →
      InPass elem capacity c r true m
  | testing {offer k m} : r.producer = .running c offer (.act .readOut k) → c.spins = true →
      (∀ out, capacity.val - r.shared.in_ + out = 0#32 → k out = .ret none) →
      (∀ out, capacity.val - r.shared.in_ + out ≠ 0#32 → (k out).Ends (fun ans => ans.isSome) m) →
      InPass elem capacity c r false (m + 1)
  | start {offer} : r.producer = .running c offer (c.body elem capacity) → c.spins = true →
      InPass elem capacity c r false c.accesses
  | again {offer} : r.producer = .running c offer (.ret none) → c.spins = true →
      InPass elem capacity c r false (c.accesses + 1)

namespace Config.InPass

variable {c : ProducerCall T} {r r' : Config T} {passed : Bool} {m : Nat}

theorem running (h : r.InPass elem capacity c passed m) :
    ∃ offer p, r.producer = .running c offer p := by
  cases h with
  | certain hp | testing hp | start hp | again hp => exact ⟨_, _, hp⟩

/-- A call begins a pass. -/
theorem begin {offer : List T} (h : r.producer = .running c offer (c.body elem capacity)) :
    ∃ passed, r.InPass elem capacity c passed c.accesses := by
  cases hc : c.spins with
  | true => exact ⟨false, .start h hc⟩
  | false =>
      have hends := c.body_ends elem capacity
      simp only [hc, Bool.false_eq_true, false_or] at hends
      exact ⟨true, .certain h hends⟩

/-- The consumer's steps leave the pass where it is. -/
theorem congr (h : r.InPass elem capacity c passed m) (hp : r'.producer = r.producer)
    (hin : r'.shared.in_ = r.shared.in_) : r'.InPass elem capacity c passed m := by
  cases h with
  | certain h hends => exact .certain (hp.trans h) hends
  | testing h hc hfull hroom =>
      exact .testing (hp.trans h) hc (by rwa [hin]) (by rwa [hin])
  | start h hc => exact .start (hp.trans h) hc
  | again h hc => exact .again (hp.trans h) hc

/-- The test finds what room there is. -/
theorem room_found (hcount : Counters capacity r.shared) (hroom : r.Roomy capacity) :
    capacity.val - r.shared.in_ + r.shared.out ≠ 0#32 := by
  intro hfull
  have hfree := hcount.free_toNat
  have hle := hcount.le
  rw [hfull, BitVec.toNat_ofNat, Nat.zero_mod] at hfree
  unfold Config.Roomy at hroom
  unfold Shared.level at hfree
  omega

/-- A step of the producer leaves the call or comes nearer to its end, provided
there is room; otherwise it may go round. -/
theorem producer_step {cmd : ProducerCmd T} (h : r.InPass elem capacity c passed m)
    (hm : m ≤ c.turns) (hcount : Counters capacity r.shared)
    (hmove : r.ProducerMoves elem capacity cmd r') :
    (∀ offer p, r'.producer ≠ .running c offer p)
      ∨ ∃ passed' m', r'.InPass elem capacity c passed' m' ∧ m' ≤ c.turns
        ∧ (passed = true ∨ r.Roomy capacity →
          m' + 1 ≤ m ∧ (passed' = true ∨ r'.Roomy capacity)) := by
  obtain ⟨offer, p, hp⟩ := h.running
  cases hmove with
  | call hoffer =>
      rw [hp] at hoffer
      cases hoffer
  | write hp' => cases hp.symm.trans hp'
  | reserve | leave => exact .inl fun _ _ hnext => by cases hnext
  | @again c' offer' hp' =>
      obtain ⟨rfl, rfl, rfl⟩ := Producer.running.inj (hp'.symm.trans hp)
      right
      cases h with
      | certain h hends =>
          obtain ⟨-, -, rfl⟩ := Producer.running.inj (hp.symm.trans h)
          cases (Prog.ends_ret _).mp hends
      | testing h => cases (Producer.running.inj (hp.symm.trans h)).2.2
      | start h hc =>
          obtain ⟨k, m, hbody, -⟩ := ProducerCall.spinning_body elem capacity hc
          rw [hbody] at h
          cases (Producer.running.inj (hp.symm.trans h)).2.2
      | again h hc =>
          exact ⟨false, _, .start rfl hc, Nat.le_add_right _ _, fun hroomy =>
            ⟨Nat.le_refl _, .inr (hroomy.resolve_left Bool.false_ne_true)⟩⟩
  | @access c' offer' a k hp' =>
      obtain ⟨rfl, rfl, rfl⟩ := Producer.running.inj (hp'.symm.trans hp)
      right
      cases h with
      | certain h hends =>
          obtain ⟨-, -, rfl⟩ := Producer.running.inj (hp.symm.trans h)
          obtain ⟨m', rfl, hk⟩ := hends.act_pos
          exact ⟨true, m', .certain rfl (hk _), Nat.le_of_succ_le hm, fun _ =>
            ⟨Nat.le_refl _, .inl rfl⟩⟩
      | @testing _ _ m' h hc hfull hroom =>
          obtain ⟨-, -, hact⟩ := Producer.running.inj (hp.symm.trans h)
          obtain ⟨rfl, hk⟩ := Prog.act.inj hact
          obtain rfl := eq_of_heq hk
          by_cases hzero : capacity.val - r.shared.in_ + r.shared.out = 0#32
          · refine ⟨false, _, .again (congrArg _ (hfull _ hzero)) hc,
              by simp [ProducerCall.turns, hc], fun hroomy => ?_⟩
            exact absurd hzero (room_found hcount (hroomy.resolve_left Bool.false_ne_true))
          · exact ⟨true, m', .certain rfl (hroom _ hzero), Nat.le_of_succ_le hm, fun _ =>
              ⟨Nat.le_refl _, .inl rfl⟩⟩
      | start h hc =>
          obtain ⟨k', m', hbody, haccesses, hfull, hends⟩ :=
            ProducerCall.spinning_body elem capacity hc
          rw [hbody] at h
          obtain ⟨-, -, hact⟩ := Producer.running.inj (hp.symm.trans h)
          obtain ⟨rfl, hk⟩ := Prog.act.inj hact
          obtain rfl := eq_of_heq hk
          exact ⟨false, m' + 1, .testing rfl hc (hfull _) (hends _),
            by unfold ProducerCall.turns; omega, fun hroomy =>
            ⟨Nat.le_of_eq haccesses.symm, .inr (hroomy.resolve_left Bool.false_ne_true)⟩⟩
      | again h => cases (Producer.running.inj (hp.symm.trans h)).2.2

/-- Only a call that spins has to find room first. -/
theorem passed_of_not_spins (h : r.InPass elem capacity c passed m) (hc : c.spins = false) :
    passed = true := by
  cases h with
  | certain => rfl
  | testing _ hc' | start _ hc' | again _ hc' => cases hc'.symm.trans hc

end Config.InPass

/-! ## The consumer's side -/

/-- The consumer is in call `c`, which it leaves after at most `m` more accesses. -/
def Config.ConsumerWithin (c : ConsumerCall T) (m : Nat) (r : Config T) : Prop :=
  ∃ taken p, r.consumer = .running c taken p ∧ p.Ends (fun _ => True) m

theorem Consuming.running {n : CInt} {r : Config T} (h : Consuming elem capacity n r) :
    ∃ taken p, r.consumer = .running (.consume n) taken p := by
  cases h with
  | start _ h | bump _ h | bumped h => exact ⟨_, _, h⟩

theorem Config.ConsumerWithin.consumer_step {c : ConsumerCall T} {r r' : Config T} {m : Nat}
    {cmd : ConsumerCmd T} (h : r.ConsumerWithin c m)
    (hmove : r.ConsumerMoves elem capacity cmd r') :
    (∀ taken p, r'.consumer ≠ .running c taken p)
      ∨ ∃ m', r'.ConsumerWithin c m' ∧ m' + 1 ≤ m := by
  obtain ⟨taken, p, hp, hends⟩ := h
  cases hmove with
  | call hstarts =>
      rw [hp] at hstarts
      cases hstarts
  | look hp' | read hp' | drop hp' => cases hp.symm.trans hp'
  | peek | leave => exact .inl fun _ _ hnext => by cases hnext
  | access hp' =>
      obtain ⟨rfl, rfl, rfl⟩ := Consumer.running.inj (hp'.symm.trans hp)
      obtain ⟨m', rfl, hk⟩ := hends.act_pos
      exact .inr ⟨m', ⟨_, _, rfl, hk _⟩, Nat.le_refl _⟩

/-! ## Every reachable state -/

/-- A thread that is in a call is at a known distance from its end. -/
structure Config.InCalls (elem : Element T) (capacity : Capacity) (r : Config T) : Prop where
  producer : ∀ {c offer p}, r.producer = .running c offer p →
    ∃ passed m, r.InPass elem capacity c passed m ∧ m ≤ c.turns
  consumer : ∀ {c taken p}, r.consumer = .running c taken p →
    ∃ m, r.ConsumerWithin c m ∧ m ≤ c.accesses

namespace Config.InCalls

variable {r r' : Config T}

theorem producer_step (h : r.InCalls elem capacity) {cmd : ProducerCmd T}
    (hcount : Counters capacity r.shared) (hmove : r.ProducerMoves elem capacity cmd r') :
    r'.InCalls elem capacity := by
  have hcons := hmove.consumer_eq
  refine ⟨fun {c offer p} hp => ?_, fun {c taken p} hc => ?_⟩
  · have hinside : ∀ {offer p}, r.producer = .running c offer p →
        ∃ passed m, r'.InPass elem capacity c passed m ∧ m ≤ c.turns := by
      intro offer' p' hold
      obtain ⟨passed, m, hpass, hm⟩ := h.producer hold
      rcases hpass.producer_step hm hcount hmove with hleft | ⟨passed', m', hnext, hm', -⟩
      · exact absurd hp (hleft offer p)
      · exact ⟨passed', m', hnext, hm'⟩
    cases hmove with
    | call =>
        obtain ⟨rfl, rfl, rfl⟩ := Producer.running.inj hp
        obtain ⟨passed, hpass⟩ := Config.InPass.begin hp
        exact ⟨passed, _, hpass, Nat.le_add_right _ _⟩
    | access hold | again hold =>
        obtain ⟨rfl, -, -⟩ := Producer.running.inj hp
        exact hinside hold
    | reserve | leave | write => cases hp
  · obtain ⟨m, ⟨taken', p', hc', hends⟩, hm⟩ := h.consumer (hcons.symm.trans hc)
    exact ⟨m, ⟨taken', p', hcons.trans hc', hends⟩, hm⟩

theorem consumer_step (h : r.InCalls elem capacity) {cmd : ConsumerCmd T}
    (hin : r'.shared.in_ = r.shared.in_) (hmove : r.ConsumerMoves elem capacity cmd r') :
    r'.InCalls elem capacity := by
  have hprod := hmove.producer_eq
  refine ⟨fun {c offer p} hp => ?_, fun {c taken p} hc => ?_⟩
  · obtain ⟨passed, m, hpass, hm⟩ := h.producer (hprod.symm.trans hp)
    exact ⟨passed, m, hpass.congr hprod hin, hm⟩
  · cases hmove with
    | call =>
        obtain ⟨rfl, rfl, rfl⟩ := Consumer.running.inj hc
        exact ⟨_, ⟨_, _, rfl, ConsumerCall.body_ends _ _ _⟩, Nat.le_refl _⟩
    | access hold =>
        obtain ⟨rfl, rfl, rfl⟩ := Consumer.running.inj hc
        obtain ⟨m, ⟨_, _, hold', hends⟩, hm⟩ := h.consumer hold
        obtain ⟨-, -, rfl⟩ := Consumer.running.inj (hold.symm.trans hold')
        obtain ⟨m', rfl, hk⟩ := hends.act_pos
        exact ⟨m', ⟨_, _, rfl, hk _⟩, Nat.le_of_succ_le hm⟩
    | look hold => cases hc.symm.trans hold
    | read | peek | leave | drop => cases hc

end Config.InCalls

theorem inCalls {r : Config T} (h : (ringSystem elem capacity).Reachable r) :
    r.InCalls elem capacity := by
  refine h.invariant (I := Config.InCalls elem capacity) ?_ ?_
  · rintro r ⟨arr, rfl⟩
    refine ⟨fun hp => ?_, fun hc => ?_⟩
    · cases hp
    · cases hc
  · intro l r r' hreach hr hstep
    have hcount := counters_reachable hreach
    cases l with
    | producer cmd => exact hr.producer_step hcount (Config.producerStep_moves _ _ hstep)
    | consumer cmd =>
        have hmove := Config.consumerStep_moves _ _ hstep
        have hcount' := counters_reachable (hreach.step hstep)
        exact hr.consumer_step (by rw [hcount'.in_eq, hcount.in_eq, hmove.published_eq]) hmove

/-! ## What a `peek` finds -/

theorem peek_body (max : Unsigned) :
    (ConsumerCall.peek max).body elem capacity
      = .act .readIn fun in_ => .act .readOut fun out => .act .readOut fun out' =>
          .ret (.peeked (min_ max (in_ - out)) (out' &&& capacity.mask).toNat) := rfl

/-- The consumer is inside a `peek` that is going to report at least `k` elements. -/
inductive Config.Finds (elem : Element T) (capacity : Capacity) (max : Unsigned) (k : Nat)
    (r : Config T) : Prop
  | start {taken} : r.consumer = .running (.peek max) taken
        ((ConsumerCall.peek max).body elem capacity) →
      r.shared.consumed.length + k ≤ r.shared.published.length → Finds elem capacity max k r
  | sawIn {taken in_} : r.consumer = .running (.peek max) taken
        (.act .readOut fun out => .act .readOut fun out' =>
          .ret (.peeked (min_ max (in_ - out)) (out' &&& capacity.mask).toNat)) →
      k ≤ (in_ - r.shared.out).toNat → Finds elem capacity max k r
  | sawOut {taken n} : r.consumer = .running (.peek max) taken
        (.act .readOut fun out' => .ret (.peeked n (out' &&& capacity.mask).toNat)) →
      k ≤ n.toNat → Finds elem capacity max k r
  | answers {taken n i} : r.consumer = .running (.peek max) taken (.ret (.peeked n i)) →
      k ≤ n.toNat → Finds elem capacity max k r

namespace Config.Finds

variable {max : Unsigned} {k : Nat} {r r' : Config T}

theorem running (h : r.Finds elem capacity max k) :
    ∃ taken p, r.consumer = .running (.peek max) taken p := by
  cases h with
  | start h | sawIn h | sawOut h | answers h => exact ⟨_, _, h⟩

theorem mono {m : Nat} (h : r.Finds elem capacity max k) (hm : m ≤ k) :
    r.Finds elem capacity max m := by
  cases h with
  | start h hle => exact .start h (Nat.le_trans (Nat.add_le_add_left hm _) hle)
  | sawIn h hle => exact .sawIn h (Nat.le_trans hm hle)
  | sawOut h hle => exact .sawOut h (Nat.le_trans hm hle)
  | answers h hle => exact .answers h (Nat.le_trans hm hle)

/-- The producer can only add to what is found. -/
theorem congr (h : r.Finds elem capacity max k) (hcons : r'.consumer = r.consumer)
    (hconsumed : r'.shared.consumed = r.shared.consumed)
    (hpublished : r.shared.published.length ≤ r'.shared.published.length)
    (hout : r'.shared.out = r.shared.out) : r'.Finds elem capacity max k := by
  cases h with
  | start h hle =>
      refine .start (hcons.trans h) ?_
      rw [hconsumed]
      exact Nat.le_trans hle hpublished
  | sawIn h hle => exact .sawIn (hcons.trans h) (by rwa [hout])
  | sawOut h hle => exact .sawOut (hcons.trans h) hle
  | answers h hle => exact .answers (hcons.trans h) hle

theorem consumer_step (h : r.Finds elem capacity max k) (hmax : k ≤ max.toNat)
    {cmd : ConsumerCmd T} (hcount : Counters capacity r.shared)
    (hmove : r.ConsumerMoves elem capacity cmd r') :
    r'.Finds elem capacity max k ∨ ∃ n i, r'.consumer = .peeked n i [] ∧ k ≤ n.toNat := by
  obtain ⟨taken, p, hp⟩ := h.running
  cases hmove with
  | call hstarts =>
      rw [hp] at hstarts
      cases hstarts
  | look hp' | read hp' | drop hp' => cases hp.symm.trans hp'
  | peek hp' =>
      right
      cases h with
      | start h => cases (Consumer.running.inj (hp'.symm.trans h)).2.2
      | sawIn h => cases (Consumer.running.inj (hp'.symm.trans h)).2.2
      | sawOut h => cases (Consumer.running.inj (hp'.symm.trans h)).2.2
      | answers h hle =>
          obtain ⟨-, -, hret⟩ := Consumer.running.inj (hp'.symm.trans h)
          obtain ⟨rfl, rfl⟩ := ConsumerAnswer.peeked.inj (Prog.ret.inj hret)
          exact ⟨_, _, rfl, hle⟩
  | leave hp' hans =>
      cases h with
      | start h => cases (Consumer.running.inj (hp'.symm.trans h)).2.2
      | sawIn h => cases (Consumer.running.inj (hp'.symm.trans h)).2.2
      | sawOut h => cases (Consumer.running.inj (hp'.symm.trans h)).2.2
      | answers h =>
          obtain ⟨-, -, hret⟩ := Consumer.running.inj (hp'.symm.trans h)
          exact absurd (Prog.ret.inj hret) (hans _ _)
  | access hp' =>
      left
      cases h with
      | start h hle =>
          rw [peek_body] at h
          obtain ⟨rfl, rfl, hact⟩ := Consumer.running.inj (hp'.symm.trans h)
          obtain ⟨rfl, hk⟩ := Prog.act.inj hact
          obtain rfl := eq_of_heq hk
          have hlevel : (r.shared.in_ - r.shared.out).toNat = r.shared.level := hcount.sub_toNat
          refine .sawIn rfl ?_
          show k ≤ (r.shared.in_ - r.shared.out).toNat
          unfold Shared.level at hlevel
          omega
      | sawIn h hle =>
          obtain ⟨rfl, rfl, hact⟩ := Consumer.running.inj (hp'.symm.trans h)
          obtain ⟨rfl, hk⟩ := Prog.act.inj hact
          obtain rfl := eq_of_heq hk
          refine .sawOut rfl ?_
          rw [min_toNat]
          exact Nat.le_min.mpr ⟨hmax, hle⟩
      | sawOut h hle =>
          obtain ⟨rfl, rfl, hact⟩ := Consumer.running.inj (hp'.symm.trans h)
          obtain ⟨rfl, hk⟩ := Prog.act.inj hact
          obtain rfl := eq_of_heq hk
          exact .answers rfl hle
      | answers h => cases (Consumer.running.inj (hp'.symm.trans h)).2.2

end Config.Finds

/-! ## Wait-freedom -/

theorem Config.producer_enabled (elem : Element T) (capacity : Capacity) {r : Config T}
    {c : ProducerCall T} {offer : List T}
    {p : QueueProg T (Option ProducerAnswer)} (hp : r.producer = .running c offer p) :
    ((ringSystem elem capacity).step (.producer .step) r).isSome := by
  simp only [ringSystem, Config.step, Config.producerStep, hp]
  rcases p with ans | ⟨a, k⟩
  · rcases ans with _ | (b | n | (_ | p) | _) <;> rfl
  · rfl

theorem Config.consumer_enabled (elem : Element T) (capacity : Capacity) {r : Config T}
    {c : ConsumerCall T} {taken : List T}
    {p : QueueProg T (ConsumerAnswer T)} (hc : r.consumer = .running c taken p) :
    ((ringSystem elem capacity).step (.consumer .step) r).isSome := by
  simp only [ringSystem, Config.step, Config.consumerStep, hc]
  rcases p with ans | ⟨a, k⟩
  · rcases ans with _ | _ | _ | _ <;> rfl
  · rfl

/-- The consumer only adds to what it has consumed. -/
theorem Config.ConsumerMoves.consumed_grows {r r' : Config T} {cmd : ConsumerCmd T}
    (h : r.ConsumerMoves elem capacity cmd r') : r.shared.consumed <+: r'.shared.consumed := by
  cases h with
  | @access c taken a k hc =>
      cases a with
      | writeOut v => exact List.prefix_append _ _
      | _ => exact List.prefix_rfl
  | _ => exact List.prefix_rfl

/-- What room there is, the consumer leaves. -/
theorem Config.Roomy.consumer_step {r r' : Config T} {cmd : ConsumerCmd T}
    (h : r.Roomy capacity) (hmove : r.ConsumerMoves elem capacity cmd r') :
    r'.Roomy capacity := by
  have hpublished := hmove.published_eq
  have hconsumed := hmove.consumed_grows.length_le
  unfold Config.Roomy at h ⊢
  rw [hpublished]
  omega

def Cmd.isProducer : Cmd T → Bool
  | .producer _ => true
  | .consumer _ => false

def Cmd.isConsumer : Cmd T → Bool
  | .producer _ => false
  | .consumer _ => true

namespace RingRun

variable {ρ : RingRun elem capacity} {a u t : Nat}

/-- From a time at which nothing stands in the way of the producer's call, it
takes no more turns than the call has. -/
theorem producer_turns_le {c : ProducerCall T} (h : ρ.ProducerInCall a t c) (hau : a < u)
    (hut : u ≤ t) (hroom : c.spins = false ∨ (ρ.state u).Roomy capacity) :
    ρ.turns Cmd.isProducer t ≤ ρ.turns Cmd.isProducer u + c.turns := by
  obtain ⟨-, -, hinside⟩ := h
  obtain ⟨offer, p, hp⟩ := hinside u hau hut
  obtain ⟨passed, m, hpass, hm⟩ := (inCalls (ρ.reachable u)).producer hp
  have hstart : passed = true ∨ (ρ.state u).Roomy capacity :=
    hroom.imp_left hpass.passed_of_not_spins
  let W (m : Nat) (r : Config T) : Prop := ∃ passed, r.InPass elem capacity c passed m
    ∧ m ≤ c.turns ∧ (passed = true ∨ r.Roomy capacity)
  have hstep : ∀ n l r r', (ringSystem elem capacity).Reachable r → W n r →
      (ringSystem elem capacity).step l r = some r' →
      (∀ offer p, r'.producer ≠ .running c offer p)
        ∨ ∃ m, W m r' ∧ m + (if Cmd.isProducer l then 1 else 0) ≤ n := by
    rintro n l r r' hreach ⟨passed, hpass, hn, hstart⟩ hstep
    have hcount := counters_reachable hreach
    cases l with
    | producer cmd =>
        rcases hpass.producer_step hn hcount (Config.producerStep_moves _ _ hstep) with
          hleft | ⟨passed', m', hpass', hm', hdown⟩
        · exact .inl hleft
        · obtain ⟨hlt, hnext⟩ := hdown hstart
          exact .inr ⟨m', ⟨passed', hpass', hm', hnext⟩, hlt⟩
    | consumer cmd =>
        have hmove := Config.consumerStep_moves _ _ hstep
        have hcount' := counters_reachable (hreach.step hstep)
        have hin : r'.shared.in_ = r.shared.in_ := by
          rw [hcount'.in_eq, hcount.in_eq, hmove.published_eq]
        refine .inr ⟨n, ⟨passed, hpass.congr hmove.producer_eq hin, hn, ?_⟩, Nat.le_refl _⟩
        exact hstart.imp_right fun hroomy => hroomy.consumer_step hmove
  obtain ⟨k, -, hk⟩ := Run.turns_within hstep hut ⟨passed, hpass, hm, hstart⟩
    fun v huv hvt hleft => by
      obtain ⟨offer, p, hp⟩ := hinside v (Nat.lt_trans hau huv) hvt
      exact hleft offer p hp
  omega

theorem consumer_turns_le {c : ConsumerCall T} (h : ρ.ConsumerInCall a t c) :
    ρ.turns Cmd.isConsumer t ≤ ρ.turns Cmd.isConsumer (a + 1) + c.accesses := by
  obtain ⟨hlt, -, hinside⟩ := h
  have hat : a + 1 ≤ t := hlt
  obtain ⟨taken, p, hc⟩ := hinside (a + 1) (Nat.lt_succ_self a) hat
  obtain ⟨m, hwithin, hm⟩ := (inCalls (ρ.reachable (a + 1))).consumer hc
  have hstep : ∀ n l r r', (ringSystem elem capacity).Reachable r → r.ConsumerWithin c n →
      (ringSystem elem capacity).step l r = some r' →
      (∀ taken p, r'.consumer ≠ .running c taken p)
        ∨ ∃ m, r'.ConsumerWithin c m ∧ m + (if Cmd.isConsumer l then 1 else 0) ≤ n := by
    rintro n l r r' - hwithin hstep
    cases l with
    | producer cmd =>
        have hmove := Config.producerStep_moves _ _ hstep
        obtain ⟨taken, p, hc, hends⟩ := hwithin
        exact .inr ⟨n, ⟨taken, p, hmove.consumer_eq.trans hc, hends⟩, Nat.le_refl _⟩
    | consumer cmd =>
        rcases hwithin.consumer_step (Config.consumerStep_moves _ _ hstep) with
          hleft | ⟨m', hm', hlt⟩
        · exact .inl hleft
        · exact .inr ⟨m', hm', hlt⟩
  obtain ⟨k, -, hk⟩ := Run.turns_within hstep hat hwithin fun v hav hvt hleft => by
    obtain ⟨taken, p, hc⟩ := hinside v (Nat.lt_of_succ_lt hav) hvt
    exact hleft taken p hc
  omega

end RingRun

/-- In every run: a thread in a call can always take its turn. A call that does
not spin, and every call of the consumer, has been left when its thread has
taken more turns than the call has accesses; a call that spins, when it has
taken two more than that since the first time there was room. -/
theorem calls_wait_free (ρ : RingRun elem capacity) (a t : Nat) :
    (∀ c, ρ.ProducerInCall a t c →
      ((ringSystem elem capacity).step (.producer .step) (ρ.state t)).isSome
        ∧ (c.spins = false →
          ρ.turns Cmd.isProducer t ≤ ρ.turns Cmd.isProducer (a + 1) + c.accesses)
        ∧ ∀ u, a < u → u ≤ t → (ρ.mem u).level < capacity.size →
          ρ.turns Cmd.isProducer t ≤ ρ.turns Cmd.isProducer u + (c.accesses + 1))
      ∧ ∀ c, ρ.ConsumerInCall a t c →
        ((ringSystem elem capacity).step (.consumer .step) (ρ.state t)).isSome
          ∧ ρ.turns Cmd.isConsumer t ≤ ρ.turns Cmd.isConsumer (a + 1) + c.accesses := by
  refine ⟨fun c h => ⟨?_, fun hc => ?_, fun u hau hut hlevel => ?_⟩, fun c h => ⟨?_, ?_⟩⟩
  · obtain ⟨offer, p, hp⟩ := h.2.2 t h.1 (Nat.le_refl t)
    exact Config.producer_enabled _ _ hp
  · have hturns := RingRun.producer_turns_le h (Nat.lt_succ_self a) h.1 (.inl hc)
    simpa [ProducerCall.turns, hc] using hturns
  · have hcount := counters_reachable (ρ.reachable u)
    have hroomy : (ρ.state u).Roomy capacity := by
      have hle := hcount.le
      have hlt : (ρ.state u).shared.published.length - (ρ.state u).shared.consumed.length
          < capacity.size := hlevel
      unfold Config.Roomy
      omega
    have hturns := RingRun.producer_turns_le h hau hut (.inr hroomy)
    have hone : c.turns ≤ c.accesses + 1 := by
      unfold ProducerCall.turns
      split <;> omega
    omega
  · obtain ⟨taken, p, hc⟩ := h.2.2 t h.1 (Nat.le_refl t)
    exact Config.consumer_enabled _ _ hc
  · exact RingRun.consumer_turns_le h

/-- The ring of two slots is filled, and a `pop` has moved its element when a
`wait_push` finds the ring full; then the `pop` bumps `out`, and the pass after the
failed one succeeds. -/
def waitWhileFull : List (Cmd Nat) :=
  .producer (.call (.tryPush 5)) :: .replicate 7 (.producer .step)
    ++ .producer (.call (.tryPush 6)) :: .replicate 7 (.producer .step)
    ++ .consumer (.call (.pop 0)) :: .replicate 5 (.consumer .step)
    ++ .producer (.call (.waitPush 7)) :: .replicate 2 (.producer .step)
    ++ .consumer .step :: .replicate 7 (.producer .step)

/-- There is room from time 26 on, and the seven steps from there are all that the
call may take before the one in which it returns. -/
theorem calls_wait_free_full :
    let ρ : RingRun (T := Nat) ⟨true, id⟩ .two := .replay _ waitWhileFull ⟨fun _ => 0, rfl⟩
    ρ.ProducerInCall 22 33 (.waitPush 7) ∧ (ρ.mem 25).level = 2 ∧ (ρ.mem 26).level = 1
      ∧ ρ.turns Cmd.isProducer 26 + 7 = ρ.turns Cmd.isProducer 33
      ∧ ρ.turns Cmd.isProducer 33 ≤ ρ.turns Cmd.isProducer 26 + 7 := by
  intro ρ
  have hinside : ρ.ProducerInCall 22 33 (.waitPush 7) := by
    refine ⟨by decide, rfl, fun k hk hk' => ?_⟩
    interval_cases k <;> exact ⟨_, _, rfl⟩
  obtain ⟨-, -, hroom⟩ := (calls_wait_free ρ 22 33).1 _ hinside
  have hfull : (ρ.mem 25).level = 2 := by decide +kernel
  have hafter : (ρ.mem 26).level = 1 := by decide +kernel
  have hturns : ρ.turns Cmd.isProducer 26 + 7 = ρ.turns Cmd.isProducer 33 := by decide +kernel
  exact ⟨hinside, hfull, hafter, hturns,
    hroom 26 (by decide) (by decide) (by rw [hafter]; decide)⟩

end LockFreeRingBuf
