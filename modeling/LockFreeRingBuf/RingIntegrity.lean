import LockFreeRingBuf.RingOps

/-!
# Integrity of the ring at every time of every run

The specifications of the operations hold of each call a thread is in
(`ProducerOk`, `ConsumerOk`); each thread's steps keep its own and are
what the other relies on. By induction on the time, both hold at every
time of every run (`RingRun.ok`).
-/

namespace LockFreeRingBuf

open Resumption Transition

variable {T : Type} {elem : Element T} {capacity : Capacity}

namespace RingRun

variable (ρ : RingRun elem capacity)

/-! ## What a call returns -/

/-- How a producer call begun at time `a` may return at time `u`; `none` sends
a spinning call round again. -/
inductive ProducerReturns (a : Nat) : ProducerCall T → Option ProducerAnswer → Nat → Prop
  | pushed {v u pub lo} : ρ.OfferingAt u (pub ++ [v]) [] lo 0 →
      ProducerReturns a (.tryPush v) (some (.verdict true)) u
  | refused {v m u pub lo} : a ≤ m → m < u → (ρ.mem m).level = capacity.size →
      ρ.OfferingAt u pub [v] lo 0 → ProducerReturns a (.tryPush v) (some (.verdict false)) u
  | waiting {v u pub lo} : ρ.OfferingAt u pub [v] lo 0 → ProducerReturns a (.waitPush v) none u
  | waited {v u pub lo} : ρ.OfferingAt u (pub ++ [v]) [] lo 0 →
      ProducerReturns a (.waitPush v) (some .done) u
  | counted {ret n m u pub lo} {r : CInt} : a ≤ m → m < u → ρ.ProducerPerforms m .readOut →
      r.toNat = min n.toNat (capacity.size - (ρ.mem m).level) →
      ρ.OfferingAt u (pub ++ (firstN ret n.toNat).take r.toNat)
        ((firstN ret n.toNat).drop r.toNat) lo 0 →
      ProducerReturns a (.push ret n) (some (.count r)) u
  | noSlot {m u pub lo} : a ≤ m → m < u → (ρ.mem m).level = capacity.size →
      ρ.OfferingAt u pub [] lo 0 → ProducerReturns a .tryReserve1 (some (.slot none)) u
  | slot {u pub lo} : ρ.OfferingAt u pub [] lo 0 → pub.length < lo + capacity.size →
      ProducerReturns a .tryReserve1 (some (.slot (some (capacity.slot pub.length)))) u
  | spinning {u pub lo} : ρ.OfferingAt u pub [] lo 0 → ProducerReturns a .reserve1 none u
  | reserved {u pub lo} : ρ.OfferingAt u pub [] lo 0 → pub.length < lo + capacity.size →
      ProducerReturns a .reserve1 (some (.slot (some (capacity.slot pub.length)))) u
  | finished {v u pub lo} : ρ.OfferingAt u (pub ++ [v]) [] lo 0 →
      ProducerReturns a .finish1 (some .done) u

/-- How a consumer call begun at time `a` may return at time `u`. -/
inductive ConsumerReturns (a : Nat) : ConsumerCall T → ConsumerAnswer T → Nat → Prop
  | popped {v x u con hi} : ρ.TakingAt u (con ++ [x]) [] hi 0 →
      ConsumerReturns a (.pop v) (.popped true x) u
  | empty {v m u con hi} : a ≤ m → m < u → (ρ.mem m).level = 0 → ρ.TakingAt u con [] hi 0 →
      ConsumerReturns a (.pop v) (.popped false v) u
  | batch {ret ret' n m u con vs hi} {r : CInt} : a ≤ m → m < u → ρ.ConsumerPerforms m .readIn →
      r.toNat = min n.toNat (ρ.mem m).level → vs.length = r.toNat →
      (∀ i, i < r.toNat → vs[i]? = some (ret' i)) → (∀ i, r.toNat ≤ i → ret' i = ret i) →
      ρ.TakingAt u (con ++ vs) [] hi 0 → ConsumerReturns a (.popBulk ret n) (.batch r ret') u
  | peeked {max m u con hi} {r : CInt} : a ≤ m → m < u → ρ.ConsumerPerforms m .readIn →
      r.toNat = min max.toNat (ρ.mem m).level → con.length + r.toNat ≤ hi →
      ρ.TakingAt u con [] hi 0 →
      ConsumerReturns a (.peek max) (.peeked r (capacity.slot con.length)) u
  | released {k u con taken hi} : ρ.TakingAt u con taken hi 0 →
      ConsumerReturns a (.consume k) .done u

variable {ρ}

/-- A call that goes round again still offers what it began with. -/
theorem ProducerReturns.again {a u : Nat} {c : ProducerCall T}
    (h : ρ.ProducerReturns a c none u) :
    ∃ pub offer lo, Producer.idle.offers c = some offer ∧ ρ.OfferingAt u pub offer lo 0 := by
  generalize hans : (none : Option ProducerAnswer) = ans at h
  cases h with
  | waiting hu | spinning hu => exact ⟨_, _, _, rfl, hu⟩
  | _ => cases hans

/-- A pointer that is returned points to the next free slot. -/
theorem ProducerReturns.slot_eq {a u p : Nat} {c : ProducerCall T}
    (h : ρ.ProducerReturns a c (some (.slot (some p))) u) :
    ∃ pub lo, p = capacity.slot pub.length ∧ pub.length < lo + capacity.size
      ∧ ρ.OfferingAt u pub [] lo 0 := by
  cases h with
  | slot hu hroom | reserved hu hroom => exact ⟨_, _, rfl, hroom, hu⟩

/-- Every producer call, begun with its offer at an idle thread, returns as
specified. -/
theorem producer_body_wp {c : ProducerCall T} {offer pub : List T} {a t lo : Nat}
    (hc : Producer.idle.offers c = some offer) (hat : a ≤ t)
    (h : ρ.OfferingAt t pub offer lo 0) :
    wp ρ.producerSide (ρ.ProducerReturns a c) (c.body elem capacity) t := by
  cases c with
  | tryPush v =>
      obtain rfl := Option.some.inj hc
      refine wp_bind (tryPush_wp h ?_ ?_)
      · exact fun m u lo htm hmu hfull hu => wp_offering_ret hu fun w huw hw =>
          .refused (by omega) (by omega) hfull hw
      · exact fun u lo hu => wp_offering_ret hu fun w _ hw => .pushed hw
  | waitPush v =>
      obtain rfl := Option.some.inj hc
      refine wp_bind (waitPush_wp h ?_ ?_)
      · exact fun u lo hu => wp_offering_ret hu fun w _ hw => .waiting hw
      · exact fun u lo hu => wp_offering_ret hu fun w _ hw => .waited hw
  | push ret n =>
      obtain rfl := Option.some.inj hc
      have hpush : SpscQueue.push elem capacity ret n = pushWith capacity (storeSlots ret) n := by
        simp only [SpscQueue.push, SpscWorker.pushTrivial, SpscWorker.pushNontrivial, ite_self]
      simp only [ProducerCall.body, hpush]
      refine wp_bind (pushWith_wp h fun m u lo r htm hmu hperf hr hu => ?_)
      exact wp_offering_ret hu fun w huw hw => .counted (by omega) (by omega) hperf hr hw
  | tryReserve1 =>
      obtain rfl := Option.some.inj hc
      refine wp_bind (tryReserve1_wp h ?_ ?_)
      · exact fun m u lo htm hmu hfull hu => wp_offering_ret hu fun w huw hw =>
          .noSlot (by omega) (by omega) hfull hw
      · exact fun u lo hu hroom => wp_offering_ret hu fun w _ hw => .slot hw hroom
  | reserve1 =>
      obtain rfl := Option.some.inj hc
      refine wp_bind (reserve1_wp h ?_ ?_)
      · exact fun u lo hu => wp_offering_ret hu fun w _ hw => .spinning hw
      · exact fun u lo hu hroom => wp_offering_ret hu fun w _ hw => .reserved hw hroom
  | finish1 => cases hc

/-- `finish_1` publishes what stands in the reserved slot. -/
theorem finish_body_wp {v : T} {pub : List T} {a lo : Nat} (h : ρ.OfferingAt a pub [v] lo 1) :
    wp ρ.producerSide (ρ.ProducerReturns a .finish1)
      (ProducerCall.finish1.body elem capacity) a :=
  wp_bind (finish1_wp h fun _ _ hu => wp_offering_ret hu fun _ _ hw => .finished hw)

/-- Every consumer call, begun at an idle thread, returns as specified. -/
theorem consumer_body_wp {c : ConsumerCall T} {con : List T} {a t hi : Nat}
    (hc : Consumer.idle.starts c = some []) (hat : a ≤ t) (h : ρ.TakingAt t con [] hi 0) :
    wp ρ.consumerSide (ρ.ConsumerReturns a c) (c.body elem capacity) t := by
  cases c with
  | pop v =>
      refine wp_bind (pop_wp h ?_ ?_)
      · exact fun m u hi htm hmu hempty hu => wp_taking_ret hu fun w huw hw =>
          .empty (by omega) (by omega) hempty hw
      · exact fun u hi x hu => wp_taking_ret hu fun w _ hw => .popped hw
  | popBulk ret n =>
      have hbatch : ∀ fetch, Fetches ρ fetch → wp ρ.consumerSide
          (ρ.ConsumerReturns a (.popBulk ret n))
          ((fun r : CInt × (Nat → T) => ConsumerAnswer.batch r.1 r.2) <$>
            popWith capacity (loadSlots fetch) ret n) t := fun fetch hfetch =>
        wp_bind (popWith_wp hfetch h fun m u hi vs r ret' htm hmu hperf hr hvs hin hout hu =>
          wp_taking_ret hu fun w huw hw => .batch (by omega) (by omega) hperf hr hvs hin hout hw)
      simp only [ConsumerCall.body, SpscQueue.popBulk, SpscWorker.popTrivial,
        SpscWorker.popNontrivial]
      split
      · exact hbatch _ fetches_readSlot
      · exact hbatch _ fetches_moveSlot
  | peek max =>
      refine wp_bind (peek_wp h fun m u hi r htm hmu hperf hr hhi hu => ?_)
      exact wp_taking_ret hu fun w huw hw => .peeked (by omega) (by omega) hperf hr hhi hw
  | consume n => cases hc

/-- `consume(k)` releases `k` of the slots that have been read. -/
theorem consume_body_wp {k : Unsigned} {taken con : List T} {a hi : Nat}
    (hk : k.toNat ≤ taken.length) (h : ρ.TakingAt a con taken hi 0) :
    wp ρ.consumerSide (ρ.ConsumerReturns a (.consume k))
      ((ConsumerCall.consume k).body elem capacity) a :=
  wp_bind (consume_wp h hk fun _ hu => wp_taking_ret hu fun _ _ hw => .released hw)

/-! ## Between the steps of a thread -/

variable (ρ)

/-- At time `t` the producer is in call `c`, begun at time `a`. -/
def ProducerInCall (a t : Nat) (c : ProducerCall T) : Prop :=
  a < t ∧ ρ.label a = some (.producer (.call c))
    ∧ ∀ k, a < k → k ≤ t → ∃ offer p, (ρ.state k).producer = .running c offer p

/-- At time `t` the consumer is in call `c`, begun at time `a`. -/
def ConsumerInCall (a t : Nat) (c : ConsumerCall T) : Prop :=
  a < t ∧ ρ.label a = some (.consumer (.call c))
    ∧ ∀ k, a < k → k ≤ t → ∃ taken p, (ρ.state k).consumer = .running c taken p

structure ProducerOk (t : Nat) : Prop where
  running : ∀ {c offer p}, (ρ.state t).producer = .running c offer p →
    ∃ a, ρ.ProducerInCall a t c ∧ wp ρ.producerSide (ρ.ProducerReturns (a + 1) c) p t
  reserved : ∀ {i v}, (ρ.state t).producer = .reserved i v →
    ∃ pub lo, i = capacity.slot pub.length ∧ ρ.OfferingAt t pub [v] lo 1

structure ConsumerOk (t : Nat) : Prop where
  idle : (ρ.state t).consumer = .idle → ∃ con hi, ρ.TakingAt t con [] hi 0
  running : ∀ {c taken p}, (ρ.state t).consumer = .running c taken p →
    ∃ a, ρ.ConsumerInCall a t c ∧ wp ρ.consumerSide (ρ.ConsumerReturns (a + 1) c) p t
  peeked : ∀ {n p taken}, (ρ.state t).consumer = .peeked n p taken →
    ∃ con hi, p = capacity.slot (con.length + taken.length) ∧ con.length + n.toNat ≤ hi
      ∧ ρ.TakingAt t con taken hi 0

structure Ok (t : Nat) : Prop where
  counters : Counters capacity (ρ.mem t)
  producer : ρ.ProducerOk t
  consumer : ρ.ConsumerOk t

variable {ρ}

theorem ProducerInCall.extend {a t : Nat} {c : ProducerCall T} {offer p}
    (h : ρ.ProducerInCall a t c) (hnext : (ρ.state (t + 1)).producer = .running c offer p) :
    ρ.ProducerInCall a (t + 1) c := by
  obtain ⟨hat, hlabel, hcall⟩ := h
  refine ⟨by omega, hlabel, fun k hak hk => ?_⟩
  rcases Nat.lt_or_eq_of_le hk with hkt | rfl
  · exact hcall k hak (by omega)
  · exact ⟨offer, p, hnext⟩

theorem ProducerInCall.begin {t : Nat} {c : ProducerCall T} {offer p}
    (hlabel : ρ.label t = some (.producer (.call c)))
    (hnext : (ρ.state (t + 1)).producer = .running c offer p) : ρ.ProducerInCall t (t + 1) c :=
  ⟨Nat.lt_succ_self t, hlabel, fun k hk hk' =>
    ⟨offer, p, by rwa [show k = t + 1 by omega]⟩⟩

theorem ConsumerInCall.extend {a t : Nat} {c : ConsumerCall T} {taken p}
    (h : ρ.ConsumerInCall a t c) (hnext : (ρ.state (t + 1)).consumer = .running c taken p) :
    ρ.ConsumerInCall a (t + 1) c := by
  obtain ⟨hat, hlabel, hcall⟩ := h
  refine ⟨by omega, hlabel, fun k hak hk => ?_⟩
  rcases Nat.lt_or_eq_of_le hk with hkt | rfl
  · exact hcall k hak (by omega)
  · exact ⟨taken, p, hnext⟩

theorem ConsumerInCall.begin {t : Nat} {c : ConsumerCall T} {taken p}
    (hlabel : ρ.label t = some (.consumer (.call c)))
    (hnext : (ρ.state (t + 1)).consumer = .running c taken p) : ρ.ConsumerInCall t (t + 1) c :=
  ⟨Nat.lt_succ_self t, hlabel, fun k hk hk' =>
    ⟨taken, p, by rwa [show k = t + 1 by omega]⟩⟩

/-! ## Steps of the producer -/

/-- The producer keeps what it knows while the consumer moves. -/
theorem ProducerOk.calm {t : Nat} (h : ρ.ProducerOk t)
    (hmem : Consumes capacity (ρ.mem t) (ρ.mem (t + 1)))
    (hsame : (ρ.state (t + 1)).producer = (ρ.state t).producer) : ρ.ProducerOk (t + 1) where
  running hnext := by
    obtain ⟨a, hcall, hwp⟩ := h.running (hsame.symm.trans hnext)
    refine ⟨a, hcall.extend hnext, wp_stable hwp ⟨Nat.le_succ t, fun x hx hx' => ?_⟩⟩
    obtain rfl : x = t := by omega
    exact ⟨hmem, by rw [hsame]⟩
  reserved hnext := by
    obtain ⟨pub, lo, hi, hoff⟩ := h.reserved (hsame.symm.trans hnext)
    exact ⟨pub, lo, hi, hoff.calm _ ⟨hmem, by rw [hsame]⟩⟩

theorem producerOk_of_idle {t : Nat} (h : (ρ.state t).producer = .idle) : ρ.ProducerOk t where
  running hnext := by simp [h] at hnext
  reserved hnext := by simp [h] at hnext

theorem producerOk_of_running {t a : Nat} {c : ProducerCall T} {offer p}
    (h : (ρ.state t).producer = .running c offer p) (hcall : ρ.ProducerInCall a t c)
    (hwp : wp ρ.producerSide (ρ.ProducerReturns (a + 1) c) p t) : ρ.ProducerOk t where
  running hnext := by
    obtain ⟨rfl, -, rfl⟩ := Producer.running.inj (h.symm.trans hnext)
    exact ⟨a, hcall, hwp⟩
  reserved hnext := by simp [h] at hnext

theorem producerOk_of_reserved {t i lo : Nat} {v : T} {pub : List T}
    (h : (ρ.state t).producer = .reserved i v) (hi : i = capacity.slot pub.length)
    (hoff : ρ.OfferingAt t pub [v] lo 1) : ρ.ProducerOk t where
  running hnext := by simp [h] at hnext
  reserved hnext := by
    obtain ⟨rfl, rfl⟩ := Producer.reserved.inj (h.symm.trans hnext)
    exact ⟨pub, lo, hi, hoff⟩

/-- What one step of the producer preserves, and what the consumer sees of it. -/
theorem producer_step {t : Nat} {cmd : ProducerCmd T}
    (hlabel : ρ.label t = some (.producer cmd))
    (hmove : (ρ.state t).ProducerMoves elem capacity cmd (ρ.state (t + 1)))
    (hcount : Counters capacity (ρ.mem t)) (hok : ρ.ProducerOk t) :
    Produces capacity (ρ.mem t) (ρ.mem (t + 1)) ∧ ρ.ProducerOk (t + 1) := by
  generalize hs' : ρ.state (t + 1) = s' at hmove
  have hmem : ρ.mem (t + 1) = s'.shared := congrArg Config.shared hs'
  have hprod : (ρ.state (t + 1)).producer = s'.producer := congrArg Config.producer hs'
  rw [hmem]
  cases hmove with
  | @call c offer hoffer =>
      refine ⟨hcount.produces, producerOk_of_running hprod (.begin hlabel hprod) ?_⟩
      rcases Producer.offers_cases hoffer with hidle | ⟨i, v, hp, rfl, rfl⟩
      · have hoff := hcount.offering offer
        rw [← show ρ.mem (t + 1) = ρ.mem t from hmem] at hoff
        exact producer_body_wp hidle (Nat.le_refl _) ⟨hoff, by rw [hprod]; rfl⟩
      · obtain ⟨pub, lo, -, hoff⟩ := hok.reserved hp
        have hoff' : Offering capacity (ρ.mem (t + 1)) pub [v] lo 1 := by
          rw [hmem]; exact hoff.1
        exact finish_body_wp ⟨hoff', by rw [hprod]; rfl⟩
  | @access c offer a k hp =>
      obtain ⟨b, hcall, hwp⟩ := hok.running hp
      have howed := (wp_ok hwp).1
      simp only [hp, Producer.offer] at howed
      refine ⟨howed, producerOk_of_running hprod (hcall.extend hprod) ?_⟩
      refine wp_next hwp ⟨rfl, ⟨hlabel, c, offer, k, hp⟩, rfl, ?_⟩
      rw [hmem, hprod, hp]
      rfl
  | @again c offer hp =>
      obtain ⟨b, hcall, hwp⟩ := hok.running hp
      obtain ⟨pub, offer', lo, hoffer, hoff⟩ := (wp_ret hwp).again
      have hsame : offer = offer' := by rw [← hoff.2, hp]; rfl
      subst hsame
      refine ⟨hcount.produces, producerOk_of_running hprod (hcall.extend hprod) ?_⟩
      have hbt := hcall.1
      have hoff' : Offering capacity (ρ.mem (t + 1)) pub offer lo 0 := by
        rw [hmem]; exact hoff.1
      exact producer_body_wp hoffer (by omega) ⟨hoff', by rw [hprod]; rfl⟩
  | @reserve c offer p hp =>
      obtain ⟨b, hcall, hwp⟩ := hok.running hp
      obtain ⟨pub, lo, rfl, hroom, hoff⟩ := (wp_ret hwp).slot_eq
      have hoff' : ρ.OfferingAt (t + 1) pub [(ρ.mem t).arr (capacity.slot pub.length)] lo 1 := by
        refine ⟨?_, by rw [hprod]; rfl⟩
        rw [hmem]; exact hoff.1.reserve hroom
      exact ⟨hcount.produces, producerOk_of_reserved hprod rfl hoff'⟩
  | @leave c offer ans hp hans =>
      exact ⟨hcount.produces, producerOk_of_idle hprod⟩
  | @write p value f hp =>
      obtain ⟨pub, lo, rfl, hoff⟩ := hok.reserved hp
      obtain ⟨-, hproduces, hnew⟩ := hoff.1.write f
      have hoff' : ρ.OfferingAt (t + 1) pub [f value] lo 1 := by
        refine ⟨?_, by rw [hprod]; rfl⟩
        rw [hmem]; exact hnew
      exact ⟨hproduces, producerOk_of_reserved hprod rfl hoff'⟩

/-! ## Steps of the consumer -/

/-- The consumer keeps what it knows while the producer moves. -/
theorem ConsumerOk.calm {t : Nat} (h : ρ.ConsumerOk t)
    (hmem : Produces capacity (ρ.mem t) (ρ.mem (t + 1)))
    (hsame : (ρ.state (t + 1)).consumer = (ρ.state t).consumer) : ρ.ConsumerOk (t + 1) where
  idle hnext := by
    obtain ⟨con, hi, htake⟩ := h.idle (hsame.symm.trans hnext)
    exact ⟨con, hi, htake.calm _ ⟨hmem, by rw [hsame]⟩⟩
  running hnext := by
    obtain ⟨a, hcall, hwp⟩ := h.running (hsame.symm.trans hnext)
    refine ⟨a, hcall.extend hnext, wp_stable hwp ⟨Nat.le_succ t, fun x hx hx' => ?_⟩⟩
    obtain rfl : x = t := by omega
    exact ⟨hmem, by rw [hsame]⟩
  peeked hnext := by
    obtain ⟨con, hi, hp, hhi, htake⟩ := h.peeked (hsame.symm.trans hnext)
    exact ⟨con, hi, hp, hhi, htake.calm _ ⟨hmem, by rw [hsame]⟩⟩

theorem consumerOk_of_idle {t hi : Nat} {con : List T} (h : (ρ.state t).consumer = .idle)
    (htake : ρ.TakingAt t con [] hi 0) : ρ.ConsumerOk t where
  idle _ := ⟨con, hi, htake⟩
  running hnext := by simp [h] at hnext
  peeked hnext := by simp [h] at hnext

theorem consumerOk_of_running {t a : Nat} {c : ConsumerCall T} {taken p}
    (h : (ρ.state t).consumer = .running c taken p) (hcall : ρ.ConsumerInCall a t c)
    (hwp : wp ρ.consumerSide (ρ.ConsumerReturns (a + 1) c) p t) : ρ.ConsumerOk t where
  idle hnext := by simp [h] at hnext
  running hnext := by
    obtain ⟨rfl, -, rfl⟩ := Consumer.running.inj (h.symm.trans hnext)
    exact ⟨a, hcall, hwp⟩
  peeked hnext := by simp [h] at hnext

theorem consumerOk_of_peeked {t p hi : Nat} {n : CInt} {con taken : List T}
    (h : (ρ.state t).consumer = .peeked n p taken)
    (hp : p = capacity.slot (con.length + taken.length)) (hhi : con.length + n.toNat ≤ hi)
    (htake : ρ.TakingAt t con taken hi 0) : ρ.ConsumerOk t where
  idle hnext := by simp [h] at hnext
  running hnext := by simp [h] at hnext
  peeked hnext := by
    obtain ⟨rfl, rfl, rfl⟩ := Consumer.peeked.inj (h.symm.trans hnext)
    exact ⟨con, hi, hp, hhi, htake⟩

/-- A call that returns leaves nothing half moved. -/
theorem ConsumerReturns.taking {a u : Nat} {c : ConsumerCall T} {ans : ConsumerAnswer T}
    (h : ρ.ConsumerReturns a c ans u) : ∃ con taken hi, ρ.TakingAt u con taken hi 0 := by
  cases h with
  | popped hu | empty _ _ _ hu | batch _ _ _ _ _ _ _ hu | peeked _ _ _ _ _ hu
  | released hu => exact ⟨_, _, _, hu⟩

/-- The loop test of a walk over `n` peeked slots keeps inside them. -/
theorem lt_toNat_of_lt_toInt {k : Nat} {n : CInt} (h : (k : Int) < n.toInt) : k < n.toNat := by
  have hle : n.toInt ≤ n.toNat := by
    rw [BitVec.toInt_eq_toNat_cond]
    split <;> omega
  omega

/-- What one step of the consumer preserves, and what the producer sees of it. -/
theorem consumer_step {t : Nat} {cmd : ConsumerCmd T}
    (hlabel : ρ.label t = some (.consumer cmd))
    (hmove : (ρ.state t).ConsumerMoves elem capacity cmd (ρ.state (t + 1)))
    (hcount : Counters capacity (ρ.mem t)) (hok : ρ.ConsumerOk t) :
    Consumes capacity (ρ.mem t) (ρ.mem (t + 1)) ∧ ρ.ConsumerOk (t + 1) := by
  generalize hs' : ρ.state (t + 1) = s' at hmove
  have hmem : ρ.mem (t + 1) = s'.shared := congrArg Config.shared hs'
  have hcons : (ρ.state (t + 1)).consumer = s'.consumer := congrArg Config.consumer hs'
  rw [hmem]
  cases hmove with
  | @call c taken htaken =>
      refine ⟨hcount.consumes, consumerOk_of_running hcons (.begin hlabel hcons) ?_⟩
      rcases Consumer.starts_cases htaken with ⟨hc, hidle⟩ | ⟨n, p, k, hc, rfl, hk⟩
      · obtain ⟨con, hi, htake⟩ := hok.idle hc
        obtain rfl : taken = [] := Consumer.starts_idle hidle
        have htake' : Taking capacity (ρ.mem (t + 1)) con [] hi 0 := by
          rw [hmem]; exact htake.1
        exact consumer_body_wp hidle (Nat.le_refl _) ⟨htake', by rw [hcons]; rfl⟩
      · obtain ⟨con, hi, -, -, htake⟩ := hok.peeked hc
        have htake' : Taking capacity (ρ.mem (t + 1)) con taken hi 0 := by
          rw [hmem]; exact htake.1
        exact consume_body_wp hk ⟨htake', by rw [hcons]; rfl⟩
  | @access c taken a k hc =>
      obtain ⟨b, hcall, hwp⟩ := hok.running hc
      have howed := (wp_ok hwp).1
      simp only [hc, Consumer.taken] at howed
      refine ⟨howed, consumerOk_of_running hcons (hcall.extend hcons) ?_⟩
      refine wp_next hwp ⟨rfl, ⟨hlabel, c, taken, k, hc⟩, rfl, ?_⟩
      rw [hmem, hcons, hc]
      rfl
  | @peek c taken n p hc =>
      obtain ⟨b, hcall, hwp⟩ := hok.running hc
      generalize hans : ConsumerAnswer.peeked n p = ans at hwp
      cases wp_ret hwp with
      | peeked _ _ _ _ hhi hu =>
          obtain ⟨rfl, rfl⟩ := ConsumerAnswer.peeked.inj hans
          refine ⟨hcount.consumes, consumerOk_of_peeked hcons rfl hhi ⟨?_, by rw [hcons]; rfl⟩⟩
          rw [hmem]; exact hu.1
      | _ => cases hans
  | @leave c taken ans hc hans =>
      obtain ⟨b, hcall, hwp⟩ := hok.running hc
      obtain ⟨con, taken', hi, htake⟩ := (wp_ret hwp).taking
      have htake' : Taking capacity (ρ.mem (t + 1)) con [] hi 0 := by
        rw [hmem]; exact htake.1.forget
      exact ⟨hcount.consumes, consumerOk_of_idle hcons ⟨htake', by rw [hcons]; rfl⟩⟩
  | @look n p taken hc hlt =>
      obtain ⟨con, hi, hp, hhi, htake⟩ := hok.peeked hc
      have htake' : Taking capacity (ρ.mem (t + 1)) con taken hi 0 := by
        rw [hmem]; exact htake.1
      exact ⟨hcount.consumes, consumerOk_of_peeked (hcons.trans hc) hp hhi
        ⟨htake', by rw [hcons, hc]; rfl⟩⟩
  | @read n p taken hc hlt =>
      obtain ⟨con, hi, rfl, hhi, htake⟩ := hok.peeked hc
      have hlt' := lt_toNat_of_lt_toInt hlt
      refine ⟨hcount.consumes, consumerOk_of_peeked hcons ?_ hhi ⟨?_, by rw [hcons]; rfl⟩⟩
      · rw [capacity.walk_slot, List.length_append]; rfl
      · rw [hmem]; exact htake.1.read (by omega)
  | @drop n p taken hc =>
      obtain ⟨con, hi, -, -, htake⟩ := hok.peeked hc
      have htake' : Taking capacity (ρ.mem (t + 1)) con [] hi 0 := by
        rw [hmem]; exact htake.1.forget
      exact ⟨hcount.consumes, consumerOk_of_idle hcons ⟨htake', by rw [hcons]; rfl⟩⟩

/-! ## Every time of every run -/

theorem counters_fresh (arr : Nat → T) :
    Counters capacity (Config.fresh arr).shared where
  in_eq := rfl
  out_eq := rfl
  room := Nat.zero_le _
  ordered := List.prefix_rfl

theorem taking_fresh (arr : Nat → T) :
    Taking capacity (Config.fresh arr).shared [] [] 0 0 where
  counters := counters_fresh arr
  consumed := rfl
  hi_le := Nat.le_refl _
  taken_le := Nat.le_refl _
  taken_eq := List.prefix_rfl
  emptied := Nat.le_refl _
  slots _ _ hj := absurd hj (Nat.not_lt_zero _)

theorem ok (ρ : RingRun elem capacity) (t : Nat) : ρ.Ok t := by
  induction t with
  | zero =>
      obtain ⟨arr, hfresh⟩ := ρ.start
      have hmem : ρ.mem 0 = (Config.fresh arr).shared := congrArg Config.shared hfresh
      have hcount : Counters capacity (ρ.mem 0) := by rw [hmem]; exact counters_fresh arr
      refine ⟨hcount, producerOk_of_idle (by rw [hfresh]; rfl), ?_⟩
      have htake : Taking capacity (ρ.mem 0) [] [] 0 0 := by rw [hmem]; exact taking_fresh arr
      exact consumerOk_of_idle (by rw [hfresh]; rfl) ⟨htake, by rw [hfresh]; rfl⟩
  | succ t ih =>
      rcases ρ.next t with ⟨-, hsame⟩ | ⟨l, hlabel, hstep⟩
      · have hmem : ρ.mem (t + 1) = ρ.mem t := congrArg Config.shared hsame
        refine ⟨?_, ih.producer.calm ?_ (by rw [hsame]), ih.consumer.calm ?_ (by rw [hsame])⟩
        · rw [hmem]; exact ih.counters
        · rw [hmem]; exact ih.counters.consumes
        · rw [hmem]; exact ih.counters.produces
      · cases l with
        | producer cmd =>
            have hmove := Config.producerStep_moves elem capacity hstep
            obtain ⟨hproduces, hok⟩ := producer_step hlabel hmove ih.counters ih.producer
            exact ⟨hproduces.counters, hok, ih.consumer.calm hproduces hmove.consumer_eq⟩
        | consumer cmd =>
            have hmove := Config.consumerStep_moves elem capacity hstep
            obtain ⟨hconsumes, hok⟩ := consumer_step hlabel hmove ih.counters ih.consumer
            exact ⟨hconsumes.counters, ih.producer.calm hconsumes hmove.producer_eq, hok⟩

end RingRun

/-! ## Integrity -/

/-- The slot the next command of the producer may store to. -/
def Producer.writesTo : Producer T → Option Nat
  | .running _ _ (.act (.writeSlot i _) _) => some i
  | .reserved i _ => some i
  | _ => none

/-- The slot the next command of the consumer may read. -/
def Consumer.readsFrom : Consumer T → Option Nat
  | .running _ _ (.act (.readSlot i) _) => some i
  | .running _ _ (.act (.moveSlot i) _) => some i
  | .peeked n p taken => if (taken.length : Int) < n.toInt then some p else none
  | _ => none

/-- In every state that any interleaving reaches, the wrapped counters are at
most one ring apart, the producer is never about to store into the window
of published and unconsumed elements, the consumer is never about to read
outside it, and what was consumed is a prefix of what was published. -/
theorem ring_integrity {s : Config T} (h : (ringSystem elem capacity).Reachable s) :
    (s.shared.in_ = BitVec.ofNat 32 s.shared.published.length
        ∧ s.shared.out = BitVec.ofNat 32 s.shared.consumed.length
        ∧ (s.shared.in_ - s.shared.out).toNat ≤ capacity.size)
      ∧ (∀ i, s.producer.writesTo = some i →
          i < capacity.size ∧ ¬ s.shared.InWindow capacity i)
      ∧ (∀ i, s.consumer.readsFrom = some i → s.shared.InWindow capacity i)
      ∧ s.shared.consumed <+: s.shared.published := by
  obtain ⟨ρ, t, rfl⟩ := h.exists_run
  obtain ⟨hcount, hproducer, hconsumer⟩ := RingRun.ok ρ t
  have hlevel := hcount.level_le
  rw [← hcount.sub_toNat] at hlevel
  refine ⟨⟨hcount.in_eq, hcount.out_eq, hlevel⟩, fun i hi => ?_, fun i hi => ?_, hcount.ordered⟩
  · unfold Producer.writesTo at hi
    split at hi
    · next c offer j v k hp =>
        obtain rfl := Option.some.inj hi
        obtain ⟨a, -, hwp⟩ := hproducer.running hp
        exact (wp_ok hwp).2 j ⟨v, rfl⟩
    · next j value hp =>
        obtain rfl := Option.some.inj hi
        obtain ⟨pub, lo, rfl, hoff⟩ := hproducer.reserved hp
        exact ⟨capacity.slot_lt _, (hoff.1.write id).1⟩
    · cases hi
  · unfold Consumer.readsFrom at hi
    split at hi
    · next c taken j k hc =>
        obtain rfl := Option.some.inj hi
        obtain ⟨a, -, hwp⟩ := hconsumer.running hc
        exact (wp_ok hwp).2 j (.inl rfl)
    · next c taken j k hc =>
        obtain rfl := Option.some.inj hi
        obtain ⟨a, -, hwp⟩ := hconsumer.running hc
        exact (wp_ok hwp).2 j (.inr rfl)
    · next n p taken hc =>
        obtain ⟨hlt, heq⟩ := Option.ite_none_right_eq_some.mp hi
        obtain rfl := Option.some.inj heq
        obtain ⟨con, hi, rfl, hhi, htake⟩ := hconsumer.peeked hc
        have hlt' := RingRun.lt_toNat_of_lt_toInt hlt
        exact htake.1.next_inWindow (by omega)
    · cases hi

/-- Two slots; `try_push(7)` completes and `pop` stops before its move. -/
theorem ring_integrity_pop :
    let s := ((ringSystem ⟨true, id⟩ .two).perform
        (.producer (.call (.tryPush 7)) :: List.replicate 7 (.producer .step)
          ++ .consumer (.call (.pop 0)) :: List.replicate 3 (.consumer .step))
        (.fresh fun _ => 0)).get (by decide +kernel)
    s.shared.published = [7] ∧ s.consumer.readsFrom = some 0
      ∧ (s.shared.in_ - s.shared.out).toNat ≤ 2
      ∧ s.shared.InWindow .two 0 ∧ s.shared.consumed <+: s.shared.published := by
  intro s
  have hreach : (ringSystem ⟨true, id⟩ .two).Reachable s :=
    .steps (.of_init ⟨fun _ => 0, rfl⟩) (System.steps_of_perform (Option.some_get _).symm)
  have hreads : s.consumer.readsFrom = some 0 := by decide +kernel
  obtain ⟨⟨-, -, hsize⟩, -, hwindow, hprefix⟩ := ring_integrity hreach
  exact ⟨by decide +kernel, hreads, hsize, hwindow 0 hreads, hprefix⟩

/-! ## Between the calls -/

/-- What a consumer that holds a peeked pointer knows. -/
theorem peeked_reachable {s : Config T} (h : (ringSystem elem capacity).Reachable s) {n : CInt}
    {p : Nat} {taken : List T} (hc : s.consumer = .peeked n p taken) :
    p = capacity.slot (s.shared.consumed.length + taken.length)
      ∧ s.shared.consumed.length + n.toNat ≤ s.shared.published.length
      ∧ s.shared.consumed ++ taken <+: s.shared.published
      ∧ ∀ j, s.shared.consumed.length ≤ j → j < s.shared.published.length →
        s.shared.published[j]? = some (s.shared.arr (capacity.slot j)) := by
  obtain ⟨ρ, t, rfl⟩ := h.exists_run
  obtain ⟨con, hi, hp, hn, htake⟩ := (RingRun.ok ρ t).consumer.peeked hc
  rw [htake.1.consumed]
  exact ⟨hp, Nat.le_trans hn htake.1.hi_le, htake.1.taken_eq, htake.1.slots⟩

/-- `peek` answers with a pointer, and never with more than it was asked for. -/
theorem peek_answer {s : Config T} (h : (ringSystem elem capacity).Reachable s) {max : Unsigned}
    {taken : List T} {ans : ConsumerAnswer T}
    (hc : s.consumer = .running (.peek max) taken (.ret ans)) :
    ∃ n p, ans = .peeked n p ∧ n.toNat ≤ max.toNat := by
  obtain ⟨ρ, t, rfl⟩ := h.exists_run
  obtain ⟨a, -, hwp⟩ := (RingRun.ok ρ t).consumer.running hc
  cases wp_ret hwp with
  | peeked _ _ _ hr _ _ => exact ⟨_, _, rfl, by rw [hr]; exact Nat.min_le_left _ _⟩

/-- `reserve_1` answers with a pointer when it answers. -/
theorem reserve1_answer {s : Config T} (h : (ringSystem elem capacity).Reachable s)
    {offer : List T} {ans : ProducerAnswer}
    (hp : s.producer = .running .reserve1 offer (.ret (some ans))) :
    ∃ p, ans = .slot (some p) := by
  obtain ⟨ρ, t, rfl⟩ := h.exists_run
  obtain ⟨a, -, hwp⟩ := (RingRun.ok ρ t).producer.running hp
  generalize hans : some ans = ans' at hwp
  cases wp_ret hwp with
  | spinning => cases hans
  | reserved => exact ⟨_, Option.some.inj hans⟩

/-- When `finish_1` returns it has published what it offered. -/
theorem finish1_answer {s : Config T} (h : (ringSystem elem capacity).Reachable s)
    {offer : List T} {ans : Option ProducerAnswer}
    (hp : s.producer = .running .finish1 offer (.ret ans)) : ans = some .done ∧ offer = [] := by
  obtain ⟨ρ, t, rfl⟩ := h.exists_run
  obtain ⟨a, -, hwp⟩ := (RingRun.ok ρ t).producer.running hp
  cases wp_ret hwp with
  | finished hu => exact ⟨rfl, by rw [← hu.2, hp]; rfl⟩

theorem counters_reachable {s : Config T} (h : (ringSystem elem capacity).Reachable s) :
    Counters capacity s.shared := by
  obtain ⟨ρ, t, rfl⟩ := h.exists_run
  exact (RingRun.ok ρ t).counters

end LockFreeRingBuf
