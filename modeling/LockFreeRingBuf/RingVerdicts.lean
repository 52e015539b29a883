import LockFreeRingBuf.RingIntegrity

/-!
# Verdicts and counts

A thread computes its verdict from its own counter and one read of the
other's. Between that read and its own next bump its counter stands still
and the other one only moves in its favour, so what it saw is exact at the
time of the read and a lower bound from then on.
-/

namespace LockFreeRingBuf

open Resumption Transition

variable {T : Type} {elem : Element T} {capacity : Capacity}

namespace RingRun

variable (ρ : RingRun elem capacity)

/-- At time `b` the producer's call `c` has come to its answer. -/
def ProducerAnswers (b : Nat) (c : ProducerCall T) (ans : ProducerAnswer) : Prop :=
  ∃ offer, (ρ.state b).producer = .running c offer (.ret (some ans))

/-- At time `b` the consumer's call `c` has come to its answer. -/
def ConsumerAnswers (b : Nat) (c : ConsumerCall T) (ans : ConsumerAnswer T) : Prop :=
  ∃ taken, (ρ.state b).consumer = .running c taken (.ret ans)

/-- During the call `c` that the producer is in at time `b`, the ring was full. -/
def FullDuring (b : Nat) (c : ProducerCall T) : Prop :=
  ∃ a m, ρ.ProducerInCall a b c ∧ a < m ∧ m < b ∧ (ρ.mem m).level = capacity.size

/-- During the call `c` that the consumer is in at time `b`, the ring was empty. -/
def EmptyDuring (b : Nat) (c : ConsumerCall T) : Prop :=
  ∃ a m, ρ.ConsumerInCall a b c ∧ a < m ∧ m < b ∧ (ρ.mem m).level = 0

/-- The steps from `m` on and before `k` leave `in` alone. -/
def InStands (m k : Nat) : Prop :=
  ∀ x v, m ≤ x → x < k → ¬ ρ.ProducerPerforms x (.writeIn v)

/-- The steps from `m` on and before `k` leave `out` alone. -/
def OutStands (m k : Nat) : Prop :=
  ∀ x v, m ≤ x → x < k → ¬ ρ.ConsumerPerforms x (.writeOut v)

/-- `r` is the smaller of `n` and the free slots at the time the call reads
`out`, and there are `r` free slots until the producer bumps `in`. -/
def CountsFree (b : Nat) (c : ProducerCall T) (n r : Unsigned) : Prop :=
  ∃ a m, ρ.ProducerInCall a b c ∧ a < m ∧ m < b ∧ ρ.ProducerPerforms m .readOut
    ∧ r.toNat = min n.toNat (capacity.size - (ρ.mem m).level)
    ∧ ∀ k, m ≤ k → ρ.InStands m k → r.toNat ≤ capacity.size - (ρ.mem k).level

/-- `r` is the smaller of `n` and the elements at the time the call reads
`in`, and there are `r` elements until the consumer bumps `out`. -/
def CountsAvailable (b : Nat) (c : ConsumerCall T) (n r : Unsigned) : Prop :=
  ∃ a m, ρ.ConsumerInCall a b c ∧ a < m ∧ m < b ∧ ρ.ConsumerPerforms m .readIn
    ∧ r.toNat = min n.toNat (ρ.mem m).level
    ∧ ∀ k, m ≤ k → ρ.OutStands m k → r.toNat ≤ (ρ.mem k).level

variable {ρ}

/-! ## Histories over time -/

/-- Only a bump of `in` publishes. -/
theorem published_step {x : Nat} (h : ∀ v, ¬ ρ.ProducerPerforms x (.writeIn v)) :
    (ρ.mem (x + 1)).published = (ρ.mem x).published := by
  obtain ⟨hcount, -, hconsumer⟩ := ρ.ok x
  rcases ρ.next x with ⟨-, hsame⟩ | ⟨l, hlabel, hstep⟩
  · exact congrArg (fun s => s.shared.published) hsame
  · cases l with
    | consumer cmd =>
        have hmove := Config.consumerStep_moves elem capacity hstep
        exact (consumer_step hlabel hmove hcount hconsumer).1.published
    | producer cmd =>
        have hmove := Config.producerStep_moves elem capacity hstep
        generalize hs' : ρ.state (x + 1) = s' at hmove
        have hmem : ρ.mem (x + 1) = s'.shared := congrArg Config.shared hs'
        rw [hmem]
        cases hmove with
        | @access c offer a k hp =>
            cases a with
            | writeIn v => exact absurd ⟨hlabel, c, offer, k, hp⟩ (h v)
            | _ => rfl
        | _ => rfl

/-- Only a bump of `out` consumes. -/
theorem consumed_step {x : Nat} (h : ∀ v, ¬ ρ.ConsumerPerforms x (.writeOut v)) :
    (ρ.mem (x + 1)).consumed = (ρ.mem x).consumed := by
  obtain ⟨hcount, hproducer, -⟩ := ρ.ok x
  rcases ρ.next x with ⟨-, hsame⟩ | ⟨l, hlabel, hstep⟩
  · exact congrArg (fun s => s.shared.consumed) hsame
  · cases l with
    | producer cmd =>
        have hmove := Config.producerStep_moves elem capacity hstep
        exact (producer_step hlabel hmove hcount hproducer).1.consumed
    | consumer cmd =>
        have hmove := Config.consumerStep_moves elem capacity hstep
        generalize hs' : ρ.state (x + 1) = s' at hmove
        have hmem : ρ.mem (x + 1) = s'.shared := congrArg Config.shared hs'
        rw [hmem]
        cases hmove with
        | @access c taken a k hc =>
            cases a with
            | writeOut v => exact absurd ⟨hlabel, c, taken, k, hc⟩ (h v)
            | _ => rfl
        | _ => rfl

/-- Neither history ever shrinks. -/
theorem histories_step (x : Nat) :
    (ρ.mem x).published.length ≤ (ρ.mem (x + 1)).published.length
      ∧ (ρ.mem x).consumed.length ≤ (ρ.mem (x + 1)).consumed.length := by
  obtain ⟨hcount, hproducer, hconsumer⟩ := ρ.ok x
  rcases ρ.next x with ⟨-, hsame⟩ | ⟨l, hlabel, hstep⟩
  · have hmem : ρ.mem (x + 1) = ρ.mem x := congrArg Config.shared hsame
    rw [hmem]
    exact ⟨Nat.le_refl _, Nat.le_refl _⟩
  · cases l with
    | producer cmd =>
        have hmove := Config.producerStep_moves elem capacity hstep
        have hproduces := (producer_step hlabel hmove hcount hproducer).1
        exact ⟨hproduces.published.length_le, Nat.le_of_eq (by rw [hproduces.consumed])⟩
    | consumer cmd =>
        have hmove := Config.consumerStep_moves elem capacity hstep
        have hconsumes := (consumer_step hlabel hmove hcount hconsumer).1
        exact ⟨Nat.le_of_eq (by rw [hconsumes.published]), hconsumes.consumed⟩

/-- While `in` stands, the free slots only grow. -/
theorem level_le_of_inStands {m k : Nat} (hmk : m ≤ k) (h : ρ.InStands m k) :
    (ρ.mem k).level ≤ (ρ.mem m).level := by
  induction hmk with
  | refl => exact Nat.le_refl _
  | @step k hmk ih =>
      have hstands : ∀ v, ¬ ρ.ProducerPerforms k (.writeIn v) := fun v =>
        h k v hmk (Nat.lt_succ_self k)
      have hbefore := ih fun x v hx hx' => h x v hx (Nat.lt_succ_of_lt hx')
      have hpublished := published_step hstands
      have hconsumed := (histories_step (ρ := ρ) k).2
      show (ρ.mem (k + 1)).level ≤ (ρ.mem m).level
      unfold Shared.level at hbefore ⊢
      rw [hpublished]
      omega

/-- While `out` stands, the elements only grow. -/
theorem level_ge_of_outStands {m k : Nat} (hmk : m ≤ k) (h : ρ.OutStands m k) :
    (ρ.mem m).level ≤ (ρ.mem k).level := by
  induction hmk with
  | refl => exact Nat.le_refl _
  | @step k hmk ih =>
      have hstands : ∀ v, ¬ ρ.ConsumerPerforms k (.writeOut v) := fun v =>
        h k v hmk (Nat.lt_succ_self k)
      have hbefore := ih fun x v hx hx' => h x v hx (Nat.lt_succ_of_lt hx')
      have hconsumed := consumed_step hstands
      have hpublished := (histories_step (ρ := ρ) k).1
      show (ρ.mem m).level ≤ (ρ.mem (k + 1)).level
      unfold Shared.level at hbefore ⊢
      rw [hconsumed]
      omega

/-! ## What an answer says -/

theorem ProducerAnswers.returns {b : Nat} {c : ProducerCall T} {ans : ProducerAnswer}
    (h : ρ.ProducerAnswers b c ans) :
    ∃ a, ρ.ProducerInCall a b c ∧ ρ.ProducerReturns (a + 1) c (some ans) b := by
  obtain ⟨offer, hp⟩ := h
  obtain ⟨a, hcall, hwp⟩ := (ρ.ok b).producer.running hp
  exact ⟨a, hcall, wp_ret hwp⟩

theorem ConsumerAnswers.returns {b : Nat} {c : ConsumerCall T} {ans : ConsumerAnswer T}
    (h : ρ.ConsumerAnswers b c ans) :
    ∃ a, ρ.ConsumerInCall a b c ∧ ρ.ConsumerReturns (a + 1) c ans b := by
  obtain ⟨taken, hc⟩ := h
  obtain ⟨a, hcall, hwp⟩ := (ρ.ok b).consumer.running hc
  exact ⟨a, hcall, wp_ret hwp⟩

theorem full_of_tryPush {b : Nat} {v : T}
    (h : ρ.ProducerAnswers b (.tryPush v) (.verdict false)) : ρ.FullDuring b (.tryPush v) := by
  obtain ⟨a, hcall, hret⟩ := h.returns
  cases hret with
  | refused ham hmb hfull => exact ⟨a, _, hcall, ham, hmb, hfull⟩

theorem full_of_tryReserve1 {b : Nat} (h : ρ.ProducerAnswers b .tryReserve1 (.slot none)) :
    ρ.FullDuring b .tryReserve1 := by
  obtain ⟨a, hcall, hret⟩ := h.returns
  cases hret with
  | noSlot ham hmb hfull => exact ⟨a, _, hcall, ham, hmb, hfull⟩

theorem counts_push {b : Nat} {ret : Nat → T} {n r : CInt}
    (h : ρ.ProducerAnswers b (.push ret n) (.count r)) : ρ.CountsFree b (.push ret n) n r := by
  obtain ⟨a, hcall, hret⟩ := h.returns
  cases hret with
  | @counted _ _ m _ _ _ _ ham hmb hperf hr =>
      refine ⟨a, m, hcall, ham, hmb, hperf, hr, fun k hmk hstands => ?_⟩
      have hlevel := level_le_of_inStands hmk hstands
      omega

theorem empty_of_pop {b : Nat} {v w : T} (h : ρ.ConsumerAnswers b (.pop v) (.popped false w)) :
    ρ.EmptyDuring b (.pop v) := by
  obtain ⟨a, hcall, hret⟩ := h.returns
  cases hret with
  | empty ham hmb hempty => exact ⟨a, _, hcall, ham, hmb, hempty⟩

theorem counts_popBulk {b : Nat} {ret ret' : Nat → T} {n r : CInt}
    (h : ρ.ConsumerAnswers b (.popBulk ret n) (.batch r ret')) :
    ρ.CountsAvailable b (.popBulk ret n) n r := by
  obtain ⟨a, hcall, hret⟩ := h.returns
  cases hret with
  | @batch _ _ _ m _ _ _ _ _ ham hmb hperf hr =>
      refine ⟨a, m, hcall, ham, hmb, hperf, hr, fun k hmk hstands => ?_⟩
      have hlevel := level_ge_of_outStands hmk hstands
      omega

theorem counts_peek {b p : Nat} {max : Unsigned} {r : CInt}
    (h : ρ.ConsumerAnswers b (.peek max) (.peeked r p)) :
    ρ.CountsAvailable b (.peek max) max r := by
  obtain ⟨a, hcall, hret⟩ := h.returns
  cases hret with
  | @peeked _ m _ _ _ _ ham hmb hperf hr =>
      refine ⟨a, m, hcall, ham, hmb, hperf, hr, fun k hmk hstands => ?_⟩
      have hlevel := level_ge_of_outStands hmk hstands
      omega

/-- A count of zero out of more than zero says that the ring was empty. -/
theorem CountsAvailable.empty {b : Nat} {c : ConsumerCall T} {n : Unsigned}
    (h : ρ.CountsAvailable b c n 0#32) (hn : 0 < n.toNat) : ρ.EmptyDuring b c := by
  obtain ⟨a, m, hcall, ham, hmb, -, hr, -⟩ := h
  refine ⟨a, m, hcall, ham, hmb, ?_⟩
  rw [BitVec.toNat_ofNat, Nat.zero_mod] at hr
  omega

end RingRun

/-- In every run: a refusal names a time within the call at which the ring
was full, a report of nothing a time at which it was empty, and a count was
exact when the call read the other thread's counter and stays covered until
the caller's own bump. -/
theorem ring_verdicts (ρ : RingRun elem capacity) (b : Nat) :
    (∀ v, ρ.ProducerAnswers b (.tryPush v) (.verdict false) → ρ.FullDuring b (.tryPush v))
      ∧ (ρ.ProducerAnswers b .tryReserve1 (.slot none) → ρ.FullDuring b .tryReserve1)
      ∧ (∀ v w, ρ.ConsumerAnswers b (.pop v) (.popped false w) → ρ.EmptyDuring b (.pop v))
      ∧ (∀ ret ret' n, 0 < n.toInt → ρ.ConsumerAnswers b (.popBulk ret n) (.batch 0#32 ret') →
          ρ.EmptyDuring b (.popBulk ret n))
      ∧ (∀ max p, 0#32 < max → ρ.ConsumerAnswers b (.peek max) (.peeked 0#32 p) →
          ρ.EmptyDuring b (.peek max))
      ∧ (∀ ret n r, ρ.ProducerAnswers b (.push ret n) (.count r) →
          ρ.CountsFree b (.push ret n) n r)
      ∧ (∀ ret ret' n r, ρ.ConsumerAnswers b (.popBulk ret n) (.batch r ret') →
          ρ.CountsAvailable b (.popBulk ret n) n r)
      ∧ (∀ max r p, ρ.ConsumerAnswers b (.peek max) (.peeked r p) →
          ρ.CountsAvailable b (.peek max) max r) := by
  refine ⟨fun v h => RingRun.full_of_tryPush h, fun h => RingRun.full_of_tryReserve1 h,
    fun v w h => RingRun.empty_of_pop h, fun ret ret' n hn h => ?_, fun max p hmax h => ?_,
    fun ret n r h => RingRun.counts_push h, fun ret ret' n r h => RingRun.counts_popBulk h,
    fun max r p h => RingRun.counts_peek h⟩
  · have hpos : 0 < n.toNat := RingRun.lt_toNat_of_lt_toInt hn
    exact (RingRun.counts_popBulk h).empty hpos
  · have hpos : 0 < max.toNat := hmax
    exact (RingRun.counts_peek h).empty hpos

/-- A `pop` whose two reads are separated by a call of `try_push`, a bulk `push` of
three elements with room for one, a `try_push` that finds the ring full, and a `peek`. -/
def emptyThenFull : List (Cmd Nat) :=
  [.consumer (.call (.pop 7)), .consumer .step, .producer (.call (.tryPush 5)), .consumer .step,
      .consumer .step]
    ++ .replicate 7 (.producer .step)
    ++ .producer (.call (.push id 3#32)) :: .replicate 7 (.producer .step)
    ++ .producer (.call (.tryPush 9)) :: .replicate 3 (.producer .step)
    ++ .consumer (.call (.peek 5#32)) :: .replicate 3 (.consumer .step)

theorem ring_verdicts_replayed :
    let ρ : RingRun (T := Nat) ⟨true, id⟩ .two := .replay _ emptyThenFull ⟨fun _ => 0, rfl⟩
    ρ.EmptyDuring 4 (.pop 7) ∧ ρ.CountsFree 19 (.push id 3#32) 3#32 1#32
      ∧ ρ.FullDuring 23 (.tryPush 9) ∧ ρ.CountsAvailable 28 (.peek 5#32) 5#32 2#32 := by
  intro ρ
  obtain ⟨-, -, hpop, -⟩ := ring_verdicts ρ 4
  obtain ⟨-, -, -, -, -, hpush, -⟩ := ring_verdicts ρ 19
  obtain ⟨hfull, -⟩ := ring_verdicts ρ 23
  obtain ⟨-, -, -, -, -, -, -, hpeek⟩ := ring_verdicts ρ 28
  exact ⟨hpop 7 7 ⟨[], rfl⟩, hpush id 3#32 1#32 ⟨_, rfl⟩, hfull 9 ⟨_, rfl⟩,
    hpeek 5#32 2#32 0 ⟨_, rfl⟩⟩

end LockFreeRingBuf
