import LockFreeRingBuf.RingIntegrity
import LockFreeRingBuf.RingTsoRules

/-!
# The ring is safe on a machine with store buffers

What holds with everything drained is kept by every step of either thread, and
by a store that drains at any time. So whatever the buffers hold back, no
value is lost, duplicated or read before it stands in its slot; only the
verdicts may be late.
-/

namespace LockFreeRingBuf

open Resumption Transition StoreBuffer

variable {T : Type} {elem : Element T} {capacity : Capacity}

namespace TsoOk

variable {s : TsoConfig T} {ins outs : Nat}

/-! ## Steps of the threads -/

/-- What the producer sees in the next slot, while it has not filled a ring. -/
theorem producer_next (h : TsoOk capacity s ins outs) {lo : Nat} (hlo : lo ≤ outs)
    (hroom : s.issued.published.length < lo + capacity.size) :
    (s.seenBy .producer).shared.arr (capacity.slot s.issued.published.length)
      = s.issued.arr (capacity.slot s.issued.published.length) :=
  h.draining.producer_slot h.draining.ins_le
    (Nat.lt_of_lt_of_le hroom (Nat.add_le_add_right hlo _))

theorem producer_step (h : TsoOk capacity s ins outs) {cmd : ProducerCmd T} {c : Config T}
    (hmove : (s.seenBy .producer).ProducerMoves elem capacity cmd c) :
    TsoOk capacity (s.after .producer ((s.seenBy .producer).producerStores elem cmd) c)
      ins outs := by
  have hproducer := h.producer
  cases hmove with
  | @call c offer hoffer =>
      apply h.producer_stays rfl rfl rfl
      rcases Producer.offers_cases hoffer with hidle | ⟨i, v, hp, rfl, rfl⟩
      · exact .running (Nat.le_refl outs) (h.offering offer)
          (ProducerCall.supplies hidle h.draining.room)
      · have hp' : s.producer = .reserved i v := hp
        rw [hp'] at hproducer
        cases hproducer with
        | reserved hlo hoff => exact .running hlo hoff ProducerCall.finish1_supplies
  | @access c offer a k hp =>
      rw [Config.producerStores_act hp]
      exact h.producer_access hp
  | @again c offer hp =>
      have hp' : s.producer = .running c offer (.ret none) := hp
      rw [hp'] at hproducer
      rw [Config.producerStores_ret hp]
      apply h.producer_stays rfl rfl rfl
      cases hproducer with
      | running hlo hoff hwp =>
          cases wp_alone_ret.mp hwp with
          | waiting => exact .running hlo hoff (ProducerCall.supplies rfl hoff.room)
          | spinning => exact .running hlo hoff (ProducerCall.supplies rfl hoff.room)
  | @reserve c offer p hp =>
      have hp' : s.producer = .running c offer (.ret (some (.slot (some p)))) := hp
      rw [hp'] at hproducer
      rw [Config.producerStores_ret hp]
      apply h.producer_stays rfl rfl rfl
      cases hproducer with
      | running hlo hoff hwp =>
          cases wp_alone_ret.mp hwp with
          | slot _ hroom =>
              have hseen := h.producer_next hlo hroom
              show ProducerKnows _ _ _ (.reserved _ ((s.seenBy .producer).shared.arr
                (capacity.slot s.issued.published.length)))
              rw [hseen]
              exact .reserved hlo (hoff.reserve hroom)
  | @leave c offer ans hp _ =>
      rw [Config.producerStores_ret hp]
      exact h.producer_stays rfl rfl rfl .idle
  | @write p value f hp =>
      have hp' : s.producer = .reserved p value := hp
      rw [hp'] at hproducer
      rw [Config.producerStores_write hp]
      cases hproducer with
      | reserved hlo hoff =>
          have hroom := hoff.room
          have hseen := h.producer_next hlo hroom
          obtain ⟨-, hproduces, hnext⟩ := hoff.write f
          have hlt : s.published.length < outs + capacity.size :=
            Nat.lt_of_lt_of_le hroom (Nat.add_le_add_right hlo _)
          rw [hseen]
          refine h.producer_stores ?_ rfl hproduces ?_ h.draining.room rfl (.reserved hlo hnext)
          · intro w hw
            obtain rfl := List.mem_singleton.mp hw
            exact h.draining.slot_commutes h.draining.ins_le hlt _
          · exact h.draining.producer.store (Nat.le_refl _) hlt _

theorem consumer_step (h : TsoOk capacity s ins outs) {cmd : ConsumerCmd T} {c : Config T}
    (hmove : (s.seenBy .consumer).ConsumerMoves elem capacity cmd c) :
    TsoOk capacity (s.after .consumer ((s.seenBy .consumer).consumerStores elem cmd) c)
      ins outs := by
  have hconsumer := h.consumer
  cases hmove with
  | @call c taken htaken =>
      apply h.consumer_stays rfl rfl rfl
      rcases Consumer.starts_cases htaken with ⟨hc, hidle⟩ | ⟨n, p, k, hc, rfl, hk⟩
      · obtain rfl := Consumer.starts_idle hidle
        have hc' : s.consumer = .idle := hc
        rw [hc'] at hconsumer
        cases hconsumer with
        | idle hhi htake =>
            have hcon := htake.taken_le
            exact .running hhi htake (ConsumerCall.demands hidle hcon)
      · have hc' : s.consumer = .peeked n p taken := hc
        rw [hc'] at hconsumer
        cases hconsumer with
        | peeked hhi _ htake => exact .running hhi htake (ConsumerCall.consume_demands hk)
  | @access c taken a k hc =>
      rw [Config.consumerStores_act hc]
      exact h.consumer_access hc
  | @peek c taken n p hc =>
      have hc' : s.consumer = .running c taken (.ret (.peeked n p)) := hc
      rw [hc'] at hconsumer
      rw [Config.consumerStores_ret hc]
      apply h.consumer_stays rfl rfl rfl
      cases hconsumer with
      | running hhi htake hwp =>
          cases wp_alone_ret.mp hwp with
          | peeked _ hn => exact .peeked hhi hn htake
  | @leave c taken ans hc _ =>
      have hc' : s.consumer = .running c taken (.ret ans) := hc
      rw [hc'] at hconsumer
      rw [Config.consumerStores_ret hc]
      apply h.consumer_stays rfl rfl rfl
      cases hconsumer with
      | running hhi htake hwp =>
          obtain rfl := (wp_alone_ret.mp hwp).emptied
          exact .idle hhi htake.forget
  | look hc _ => exact h.consumer_stays rfl rfl rfl h.consumer
  | @read n p taken hc hlt =>
      have hc' : s.consumer = .peeked n p taken := hc
      rw [hc'] at hconsumer
      apply h.consumer_stays rfl rfl rfl
      cases hconsumer with
      | peeked hhi hn htake =>
          have hlt' := RingRun.lt_toNat_of_lt_toInt hlt
          have hnext : s.issued.consumed.length + taken.length < _ :=
            Nat.lt_of_lt_of_le (Nat.add_lt_add_left hlt' _) hn
          have hread := htake.read hnext
          have hknows := ConsumerKnows.peeked hhi hn hread
          rw [List.length_append, ← h.consumer_next hhi hnext] at hknows
          rw [capacity.walk_slot]
          exact hknows
  | @drop n p taken hc =>
      have hc' : s.consumer = .peeked n p taken := hc
      rw [hc'] at hconsumer
      apply h.consumer_stays rfl rfl rfl
      cases hconsumer with
      | peeked hhi _ htake => exact .idle hhi htake.forget

/-! ## Stores that drain -/

/-- The oldest store of the producer drains. -/
theorem producer_drains (h : TsoOk capacity s ins outs)
    {m : Buffered RingThread (Fifo T) (Store T)}
    (hm : s.memory.flush Store.apply .producer = some m) :
    ∃ ins', TsoOk capacity { s with memory := m } ins' outs := by
  obtain ⟨w, ws, hbuf, hmem, hrest, hother⟩ := Buffered.flush_cases hm
  have hcons : m.buffer .consumer = s.memory.buffer .consumer := hother .consumer (by decide)
  have hissued : TsoConfig.issued { s with memory := m } = s.issued := by
    simp only [TsoConfig.issued, TsoConfig.showing, hcons, Buffered.flush_view_self hm]
  have hpending := h.draining.producer
  rw [hbuf] at hpending
  -- Only a store to `in` moves the position that `in` stands for.
  have hmoved : ∃ ins', ins ≤ ins' ∧ m.memory.in_ = BitVec.ofNat 32 ins'
      ∧ m.memory.out = s.memory.memory.out
      ∧ Pending capacity .in_ (outs + capacity.size) ins' s.published.length ws := by
    rcases hpending.drains with ⟨j, t, rfl, hws⟩ | ⟨k, hk, rfl, hws⟩
    · exact ⟨ins, Nat.le_refl ins, by rw [hmem]; exact h.draining.in_eq, by rw [hmem]; rfl, hws⟩
    · exact ⟨k, hk, by rw [hmem]; rfl, by rw [hmem]; rfl, hws⟩
  obtain ⟨ins', hle, hin, hout, hws⟩ := hmoved
  exists ins'
  constructor
  · rw [hissued]
    exact h.counters
  · constructor
    · exact hin
    · exact hout.trans h.draining.out_eq
    · exact Nat.le_trans h.draining.consumed_le hle
    · exact h.draining.room
    · rw [hrest]
      exact hws
    · rw [hcons]
      exact h.draining.consumer.mono hle
  · rw [hissued]
    exact h.producer
  · rw [hissued]
    exact h.consumer.produces h.counters.produces hle

/-- The oldest store of the consumer drains. -/
theorem consumer_drains (h : TsoOk capacity s ins outs)
    {m : Buffered RingThread (Fifo T) (Store T)}
    (hm : s.memory.flush Store.apply .consumer = some m) :
    ∃ outs', TsoOk capacity { s with memory := m } ins outs' := by
  obtain ⟨w, ws, hbuf, hmem, hrest, hother⟩ := Buffered.flush_cases hm
  have hprod : m.buffer .producer = s.memory.buffer .producer := hother .producer (by decide)
  have hpending := h.draining.consumer
  rw [hbuf] at hpending
  have hmoved : ∃ outs', outs ≤ outs' ∧ m.memory.out = BitVec.ofNat 32 outs'
      ∧ m.memory.in_ = s.memory.memory.in_
      ∧ Pending capacity .out ins outs' s.consumed.length ws := by
    rcases hpending.drains with ⟨j, t, rfl, hws⟩ | ⟨k, hk, rfl, hws⟩
    · exact ⟨outs, Nat.le_refl outs, by rw [hmem]; exact h.draining.out_eq, by rw [hmem]; rfl, hws⟩
    · exact ⟨k, hk, by rw [hmem]; rfl, by rw [hmem]; rfl, hws⟩
  obtain ⟨outs', hle, hout, hin, hws⟩ := hmoved
  have hroom : outs + capacity.size ≤ outs' + capacity.size := Nat.add_le_add_right hle _
  have hdraining : Draining capacity { s with memory := m } ins outs' := by
    constructor
    · exact hin.trans h.draining.in_eq
    · exact hout
    · exact h.draining.consumed_le
    · exact Nat.le_trans h.draining.room hroom
    · rw [hprod]
      exact h.draining.producer.mono hroom
    · rw [hrest]
      exact hws
  -- The consumer's stores come first here, and drain in order.
  have hissued : TsoConfig.issued { s with memory := m } = s.issued := by
    rw [hdraining.issued_eq, h.draining.issued_eq]
    simp only [TsoConfig.showing, hprod, Buffered.flush_view_self hm]
  exists outs'
  constructor
  · rw [hissued]
    exact h.counters
  · exact hdraining
  · rw [hissued]
    exact h.producer.consumes h.counters.consumes hle
  · rw [hissued]
    exact h.consumer

/-! ## Every reachable state -/

theorem quiet_fresh (arr : Nat → T) : TsoOk capacity (.quiet (.fresh arr)) 0 0 where
  counters := RingRun.counters_fresh arr
  draining := {
    in_eq := rfl
    out_eq := rfl
    consumed_le := Nat.le_refl 0
    room := Nat.zero_le _
    producer := .nil
    consumer := .nil }
  producer := .idle
  consumer := .idle (Nat.le_refl 0) (RingRun.taking_fresh arr)

theorem step {s' : TsoConfig T} (h : TsoOk capacity s ins outs) {cmd : TsoCmd T}
    (hstep : s.step elem capacity cmd = some s') :
    ∃ ins' outs', TsoOk capacity s' ins' outs' := by
  cases cmd with
  | producer cmd =>
      obtain ⟨c, hc, rfl⟩ := Option.map_eq_some_iff.mp hstep
      exact ⟨ins, outs, h.producer_step (Config.producerStep_moves elem capacity hc)⟩
  | consumer cmd =>
      obtain ⟨c, hc, rfl⟩ := Option.map_eq_some_iff.mp hstep
      exact ⟨ins, outs, h.consumer_step (Config.consumerStep_moves elem capacity hc)⟩
  | drain i =>
      obtain ⟨m, hm, rfl⟩ := Option.map_eq_some_iff.mp hstep
      cases i with
      | producer =>
          obtain ⟨ins', hnext⟩ := h.producer_drains hm
          exact ⟨ins', outs, hnext⟩
      | consumer =>
          obtain ⟨outs', hnext⟩ := h.consumer_drains hm
          exact ⟨ins, outs', hnext⟩

theorem reachable {s : TsoConfig T} (h : (tsoSystem elem capacity).Reachable s) :
    ∃ ins outs, TsoOk capacity s ins outs := by
  apply h.invariant
  · rintro s ⟨arr, rfl⟩
    exact ⟨0, 0, quiet_fresh arr⟩
  · rintro cmd s s' _ ⟨ins, outs, hok⟩ hstep
    exact hok.step hstep

/-! ### The next store and the next load -/

/-- The producer is about to store to a slot that is free, also of values whose
release has not drained. -/
theorem writes (h : TsoOk capacity s ins outs) {i : Nat} (hi : s.producer.writesTo = some i) :
    i < capacity.size ∧ ∀ j, outs ≤ j → j < s.published.length → capacity.slot j ≠ i := by
  -- The slot is that of a position past the published, less than one ring from `outs`.
  have hslot : ∃ p, i = capacity.slot p ∧ s.published.length ≤ p ∧ p < outs + capacity.size := by
    have hproducer := h.producer
    unfold Producer.writesTo at hi
    split at hi
    · next c offer x t k hp =>
        obtain rfl := Option.some.inj hi
        rw [hp] at hproducer
        cases hproducer with
        | running hlo _ hwp =>
            obtain ⟨rfl, -, hroom⟩ := wp_ok hwp
            exact ⟨_, rfl, Nat.le_add_right _ _,
              Nat.lt_of_lt_of_le hroom (Nat.add_le_add_right hlo _)⟩
    · next x value hp =>
        obtain rfl := Option.some.inj hi
        rw [hp] at hproducer
        cases hproducer with
        | reserved hlo hoff =>
            exact ⟨_, rfl, Nat.le_refl _,
              Nat.lt_of_lt_of_le hoff.room (Nat.add_le_add_right hlo _)⟩
    · cases hi
  obtain ⟨p, rfl, hp, hroom⟩ := hslot
  constructor
  · exact capacity.slot_lt p
  · intro j hj hjp heq
    exact slot_ne (p := p) (q := j) (by omega) (by omega) heq.symm

/-- The consumer is about to read the slot of the value published next after those
it has taken, and sees that value there. -/
theorem reads (h : TsoOk capacity s ins outs) {i : Nat} (hi : s.consumer.readsFrom = some i) :
    let j := s.consumed.length + s.consumer.taken.length
    j < ins ∧ i = capacity.slot j
      ∧ s.published[j]? = some ((s.seenBy .consumer).shared.arr i) := by
  intro j
  have hslot : ∃ hi n, hi ≤ ins ∧ i = capacity.slot j ∧ j < hi
      ∧ Taking capacity s.issued s.issued.consumed s.consumer.taken hi n := by
    have hconsumer := h.consumer
    unfold Consumer.readsFrom at hi
    split at hi
    · next c taken x k hc =>
        obtain rfl := Option.some.inj hi
        simp only [j, hc] at hconsumer ⊢
        cases hconsumer with
        | running hhi htake hwp =>
            obtain ⟨rfl, hlt⟩ := wp_ok hwp
            exact ⟨_, _, hhi, rfl, hlt, htake⟩
    · next c taken x k hc =>
        obtain rfl := Option.some.inj hi
        simp only [j, hc] at hconsumer ⊢
        cases hconsumer with
        | running hhi htake hwp =>
            obtain ⟨rfl, hlt⟩ := wp_ok hwp
            exact ⟨_, _, hhi, rfl, hlt, htake⟩
    · next n p taken hc =>
        obtain ⟨hlt, heq⟩ := Option.ite_none_right_eq_some.mp hi
        obtain rfl := Option.some.inj heq
        simp only [j, hc] at hconsumer ⊢
        cases hconsumer with
        | peeked hhi hn htake =>
            have hlt' := RingRun.lt_toNat_of_lt_toInt hlt
            exact ⟨_, _, hhi, rfl, Nat.lt_of_lt_of_le (Nat.add_lt_add_left hlt' _) hn, htake⟩
    · cases hi
  obtain ⟨hi, n, hhi, rfl, hlt, htake⟩ := hslot
  have hseen := h.consumer_next hhi hlt
  have hvalue := htake.next_eq hlt
  rw [← hseen] at hvalue
  exact ⟨Nat.lt_of_lt_of_le hlt hhi, rfl, hvalue⟩

/-! ### Calls that return -/

theorem producer_ends (h : TsoOk capacity s ins outs) {c : ProducerCall T} {offer : List T}
    {ans : Option ProducerAnswer} (hp : s.producer = .running c offer (.ret ans)) :
    ∃ lo n, lo ≤ outs ∧ ProducerEnds capacity c ans ⟨s.published, offer, lo, n⟩ := by
  have hproducer := h.producer
  rw [hp] at hproducer
  cases hproducer with
  | running hlo _ hwp => exact ⟨_, _, hlo, wp_alone_ret.mp hwp⟩

theorem consumer_ends (h : TsoOk capacity s ins outs) {c : ConsumerCall T} {taken : List T}
    {ans : ConsumerAnswer T} (hc : s.consumer = .running c taken (.ret ans)) :
    ∃ hi n, hi ≤ ins ∧ ConsumerEnds capacity c ans ⟨s.consumed, taken, hi, n⟩ := by
  have hconsumer := h.consumer
  rw [hc] at hconsumer
  cases hconsumer with
  | running hhi _ hwp => exact ⟨_, _, hhi, wp_alone_ret.mp hwp⟩

/-- What was consumed and what is taken is what was published first. -/
theorem taken_prefix (h : TsoOk capacity s ins outs) :
    s.consumed ++ s.consumer.taken <+: s.published := by
  have hconsumer := h.consumer
  cases hc : s.consumer with
  | idle =>
      rw [hc] at hconsumer
      cases hconsumer with
      | idle _ htake => exact htake.taken_eq
  | running c taken p =>
      rw [hc] at hconsumer
      cases hconsumer with
      | running _ htake _ => exact htake.taken_eq
  | peeked n p taken =>
      rw [hc] at hconsumer
      cases hconsumer with
      | peeked _ _ htake => exact htake.taken_eq

end TsoOk

/-! ## Safety -/

/-- The ring is in order, whatever is still buffered; in memory `in` stands for
`ins` values published and `out` for `outs` values consumed. -/
structure TsoSafe (capacity : Capacity) (s : TsoConfig T) (ins outs : Nat) : Prop where
  in_eq : s.memory.memory.in_ = BitVec.ofNat 32 ins
  out_eq : s.memory.memory.out = BitVec.ofNat 32 outs
  outs_le : outs ≤ s.consumed.length
  consumed_le : s.consumed.length ≤ ins
  ins_le : ins ≤ s.published.length
  room : s.published.length ≤ outs + capacity.size
  ordered : s.consumed ++ s.consumer.taken <+: s.published
  /-- The buffers may drain in any order. -/
  commutes : ∀ w ∈ s.memory.buffer .producer, ∀ u ∈ s.memory.buffer .consumer,
    Commutes Store.apply w u
  /-- The producer overwrites nothing that the consumer may still read. -/
  writes : ∀ i, s.producer.writesTo = some i →
    i < capacity.size ∧ ∀ j, outs ≤ j → j < s.published.length → capacity.slot j ≠ i
  /-- The consumer reads the next value, which has drained. -/
  reads : ∀ i, s.consumer.readsFrom = some i →
    let j := s.consumed.length + s.consumer.taken.length
    j < ins ∧ i = capacity.slot j ∧ s.published[j]? = some ((s.seenBy .consumer).shared.arr i)
  produced : ∀ c offer ans, s.producer = .running c offer (.ret ans) →
    ∃ lo n, lo ≤ outs ∧ ProducerEnds capacity c ans ⟨s.published, offer, lo, n⟩
  taken : ∀ c taken ans, s.consumer = .running c taken (.ret ans) →
    ∃ hi n, hi ≤ ins ∧ ConsumerEnds capacity c ans ⟨s.consumed, taken, hi, n⟩

/-- On a machine with store buffers every reachable state is safe: the values are
consumed in the order in which they were published, none is overwritten
before or read after its time, and a call answers by what it has published
or consumed. The fences are not needed for this; without them a thread may
only see the other's counter late. -/
theorem tso_ring_safe {s : TsoConfig T} (h : (tsoSystem elem capacity).Reachable s) :
    ∃ ins outs, TsoSafe capacity s ins outs := by
  obtain ⟨ins, outs, hok⟩ := TsoOk.reachable h
  exists ins, outs
  constructor
  · exact hok.draining.in_eq
  · exact hok.draining.out_eq
  · exact hok.draining.outs_le
  · exact hok.draining.consumed_le
  · exact hok.draining.ins_le
  · exact hok.draining.room
  · exact hok.taken_prefix
  · exact hok.draining.commutes
  · intro i hi
    exact hok.writes hi
  · intro i hi
    exact hok.reads hi
  · intro c offer ans hp
    exact hok.producer_ends hp
  · intro c taken ans hc
    exact hok.consumer_ends hc

/-- Two slots. `try_push(7)` has drained, `try_push(8)` is buffered; `pop` has taken 7,
but neither the move nor its bump of `out` has drained. So `try_push(9)` is
refused, with one value in the ring. -/
theorem tso_ring_safe_stale :
    let s := ((tsoSystem ⟨true, id⟩ .two).perform
        (.producer (.call (.tryPush 7)) :: List.replicate 7 (.producer .step)
          ++ [.drain .producer, .drain .producer]
          ++ .producer (.call (.tryPush 8)) :: List.replicate 7 (.producer .step)
          ++ .consumer (.call (.pop 0)) :: List.replicate 6 (.consumer .step)
          ++ .producer (.call (.tryPush 9)) :: List.replicate 2 (.producer .step))
        (.quiet (.fresh fun _ => 0))).get (by decide +kernel)
    s.published = [7, 8] ∧ s.consumed = [7]
      ∧ s.memory.memory.in_ = 1#32 ∧ s.memory.memory.out = 0#32
      ∧ s.producer = .running (.tryPush 9) [9] (.ret (some (.verdict false)))
      ∧ ∃ ins outs, TsoSafe .two s ins outs := by
  intro s
  have hreach : (tsoSystem ⟨true, id⟩ .two).Reachable s :=
    .steps (.of_init ⟨fun _ => 0, rfl⟩) (System.steps_of_perform (Option.some_get _).symm)
  have hsafe := tso_ring_safe hreach
  exact ⟨by decide +kernel, by decide +kernel, by decide +kernel, by decide +kernel, rfl, hsafe⟩

end LockFreeRingBuf
