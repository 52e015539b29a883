import LockFreeRingBuf.RingRules

/-!
# The two threads as sides of one run

Fix a run of the ring. The worlds of `Resumption.wp` are the times of the
run: a thread's program is followed from the time it is at, over whatever
the other thread does, to the time of its next access. The rules below
are the producer's and the consumer's accesses in terms of `Offering` and
`Taking`; the rule for reading the other thread's counter also names the
time of the read.
-/

namespace LockFreeRingBuf

open Resumption Transition

variable {T : Type} {elem : Element T} {capacity : Capacity}

/-- A slot the access stores to. -/
def Access.Writes (a : Access T) (i : Nat) : Prop := ∃ t, a = .writeSlot i t

/-- A slot the access reads. -/
def Access.Reads (a : Access T) (i : Nat) : Prop := a = .readSlot i ∨ a = .moveSlot i

abbrev RingRun (elem : Element T) (capacity : Capacity) := Run (ringSystem elem capacity)

namespace RingRun

variable (ρ : RingRun elem capacity)

/-- Memory and histories at time `t`. -/
abbrev mem (t : Nat) : Shared T := (ρ.state t).shared

/-- At time `t` the producer performs access `a` of the call it is in. -/
def ProducerPerforms (t : Nat) (a : Access T) : Prop :=
  ρ.label t = some (.producer .step)
    ∧ ∃ c offer k, (ρ.state t).producer = .running c offer (.act a k)

/-- At time `t` the consumer performs access `a` of the call it is in. -/
def ConsumerPerforms (t : Nat) (a : Access T) : Prop :=
  ρ.label t = some (.consumer .step)
    ∧ ∃ c taken k, (ρ.state t).consumer = .running c taken (.act a k)

/-- The producer relies on the consumer's steps being `Consumes`; it owes
steps that are `Produces`, and stores to slots of the array outside the
window. -/
def producerSide : Side (Access T) Access.Answer Nat :=
  timed
    (fun x => Consumes capacity (ρ.mem x) (ρ.mem (x + 1))
      ∧ (ρ.state (x + 1)).producer.offer = (ρ.state x).producer.offer)
    (fun a t r => ρ.ProducerPerforms t a
      ∧ r = ((ρ.mem t).toFifo.perform elem a).1
      ∧ (ρ.mem (t + 1), (ρ.state (t + 1)).producer.offer)
        = (ρ.mem t).produce elem (ρ.state t).producer.offer a)
    (fun a t =>
      Produces capacity (ρ.mem t) ((ρ.mem t).produce elem (ρ.state t).producer.offer a).1
        ∧ ∀ i, a.Writes i → i < capacity.size ∧ ¬ (ρ.mem t).InWindow capacity i)

/-- The consumer relies on the producer's steps being `Produces`; it owes
steps that are `Consumes`, and reads of slots inside the window. -/
def consumerSide : Side (Access T) Access.Answer Nat :=
  timed
    (fun x => Produces capacity (ρ.mem x) (ρ.mem (x + 1))
      ∧ (ρ.state (x + 1)).consumer.taken = (ρ.state x).consumer.taken)
    (fun a t r => ρ.ConsumerPerforms t a
      ∧ r = ((ρ.mem t).toFifo.perform elem a).1
      ∧ (ρ.mem (t + 1), (ρ.state (t + 1)).consumer.taken)
        = (ρ.mem t).release elem (ρ.state t).consumer.taken a r)
    (fun a t =>
      Consumes capacity (ρ.mem t) ((ρ.mem t).release elem (ρ.state t).consumer.taken a
        ((ρ.mem t).toFifo.perform elem a).1).1
        ∧ ∀ i, a.Reads i → (ρ.mem t).InWindow capacity i)

/-! ## The producer's accesses -/

def OfferingAt (t : Nat) (pub offer : List T) (lo n : Nat) : Prop :=
  Offering capacity (ρ.mem t) pub offer lo n ∧ (ρ.state t).producer.offer = offer

section

variable {ρ} {t lo n : Nat} {pub offer : List T} {α : Type} {Q : α → Nat → Prop}

theorem OfferingAt.calm (x : Nat)
    (hx : Consumes capacity (ρ.mem x) (ρ.mem (x + 1))
      ∧ (ρ.state (x + 1)).producer.offer = (ρ.state x).producer.offer)
    (h : ρ.OfferingAt x pub offer lo n) : ρ.OfferingAt (x + 1) pub offer lo n :=
  ⟨h.1.consumes hx.1, hx.2.trans h.2⟩

theorem OfferingAt.raise (h : ρ.OfferingAt t pub offer lo n) :
    ρ.OfferingAt t pub offer (ρ.mem t).consumed.length n :=
  ⟨h.1.raise, h.2⟩

theorem wp_offering_ret {x : α} (h : ρ.OfferingAt t pub offer lo n)
    (hQ : ∀ u, t ≤ u → ρ.OfferingAt u pub offer lo n → Q x u) :
    wp ρ.producerSide Q (.ret x) t :=
  wp_timed_ret OfferingAt.calm h hQ

theorem wp_readIn {k : Unsigned → QueueProg T α} (h : ρ.OfferingAt t pub offer lo n)
    (hk : ∀ u, t ≤ u → ρ.OfferingAt (u + 1) pub offer lo n →
      wp ρ.producerSide Q (k (BitVec.ofNat 32 pub.length)) (u + 1)) :
    wp ρ.producerSide Q (.act .readIn k) t := by
  refine wp_timed_act OfferingAt.calm h (fun u _ hu => ⟨hu.1.counters.produces, ?_⟩) ?_
  · rintro i ⟨t, ht⟩; cases ht
  · rintro u r htu hu ⟨-, hr, hnext⟩
    obtain ⟨hmem, hoffer⟩ := Prod.mk.inj hnext
    have hin : (ρ.mem u).in_ = BitVec.ofNat 32 pub.length := by
      rw [hu.1.counters.in_eq, hu.1.published]
    obtain rfl := hr.trans hin
    exact hk u htu ⟨hmem ▸ hu.1, hoffer.trans hu.2⟩

/-- Reading `out` at time `u` shows how far the consumer has got by then. -/
theorem wp_readOut {k : Unsigned → QueueProg T α} (h : ρ.OfferingAt t pub offer lo n)
    (hk : ∀ u, t ≤ u → ρ.ProducerPerforms u .readOut → ρ.OfferingAt u pub offer lo n →
      ρ.OfferingAt (u + 1) pub offer (ρ.mem u).consumed.length n →
      wp ρ.producerSide Q (k (BitVec.ofNat 32 (ρ.mem u).consumed.length)) (u + 1)) :
    wp ρ.producerSide Q (.act .readOut k) t := by
  refine wp_timed_act OfferingAt.calm h (fun u _ hu => ⟨hu.1.counters.produces, ?_⟩) ?_
  · rintro i ⟨t, ht⟩; cases ht
  · rintro u r htu hu ⟨hperf, hr, hnext⟩
    obtain ⟨hmem, hoffer⟩ := Prod.mk.inj hnext
    obtain rfl := hr.trans hu.1.counters.out_eq
    exact hk u htu hperf hu ⟨hmem ▸ hu.raise.1, hoffer.trans hu.2⟩

/-- Storing the next offered value in its slot. -/
theorem wp_writeSlot {k : Unit → QueueProg T α} {v : T}
    (h : ρ.OfferingAt t pub offer lo n) (hv : offer[n]? = some v)
    (hroom : pub.length + n < lo + capacity.size)
    (hk : ∀ u, t ≤ u → ρ.OfferingAt (u + 1) pub offer lo (n + 1) →
      wp ρ.producerSide Q (k ()) (u + 1)) :
    wp ρ.producerSide Q (.act (.writeSlot (capacity.slot (pub.length + n)) v) k) t := by
  refine wp_timed_act OfferingAt.calm h (fun u _ hu => ⟨(hu.1.store hv hroom).1, ?_⟩) ?_
  · rintro i ⟨t, ht⟩
    obtain ⟨rfl, -⟩ := Access.writeSlot.inj ht
    exact ⟨capacity.slot_lt _, hu.1.not_inWindow hroom⟩
  · rintro u r htu hu ⟨-, -, hnext⟩
    obtain ⟨hmem, hoffer⟩ := Prod.mk.inj hnext
    exact hk u htu ⟨hmem ▸ (hu.1.store hv hroom).2, hoffer.trans hu.2⟩

/-- Bumping `in` past the staged values. -/
theorem wp_writeIn {k : Unit → QueueProg T α} (h : ρ.OfferingAt t pub offer lo n)
    (hn : n ≤ offer.length)
    (hk : ∀ u, t ≤ u → ρ.OfferingAt (u + 1) (pub ++ offer.take n) (offer.drop n) lo 0 →
      wp ρ.producerSide Q (k ()) (u + 1)) :
    wp ρ.producerSide Q (.act (.writeIn (BitVec.ofNat 32 (pub.length + n))) k) t := by
  refine wp_timed_act OfferingAt.calm h
    (fun u _ hu => ⟨by rw [hu.2]; exact (hu.1.publish elem hn).1, ?_⟩) ?_
  · rintro i ⟨t, ht⟩; cases ht
  · rintro u r htu hu ⟨-, -, hnext⟩
    obtain ⟨-, hnew, hrest⟩ := hu.1.publish elem hn
    rw [hu.2] at hnext
    obtain ⟨hmem, hoffer⟩ := Prod.mk.inj (hnext.trans (Prod.mk.eta).symm)
    exact hk u htu ⟨hmem ▸ hnew, hoffer.trans hrest⟩

end

/-! ## The consumer's accesses -/

def TakingAt (t : Nat) (con taken : List T) (hi n : Nat) : Prop :=
  Taking capacity (ρ.mem t) con taken hi n ∧ (ρ.state t).consumer.taken = taken

section

variable {ρ} {t hi n : Nat} {con taken : List T} {α : Type} {Q : α → Nat → Prop}

theorem TakingAt.calm (x : Nat)
    (hx : Produces capacity (ρ.mem x) (ρ.mem (x + 1))
      ∧ (ρ.state (x + 1)).consumer.taken = (ρ.state x).consumer.taken)
    (h : ρ.TakingAt x con taken hi n) : ρ.TakingAt (x + 1) con taken hi n :=
  ⟨h.1.produces hx.1, hx.2.trans h.2⟩

theorem TakingAt.raise (h : ρ.TakingAt t con taken hi n) :
    ρ.TakingAt t con taken (ρ.mem t).published.length n :=
  ⟨h.1.raise, h.2⟩

theorem wp_taking_ret {x : α} (h : ρ.TakingAt t con taken hi n)
    (hQ : ∀ u, t ≤ u → ρ.TakingAt u con taken hi n → Q x u) :
    wp ρ.consumerSide Q (.ret x) t :=
  wp_timed_ret TakingAt.calm h hQ

theorem wp_readOut' {k : Unsigned → QueueProg T α} (h : ρ.TakingAt t con taken hi n)
    (hk : ∀ u, t ≤ u → ρ.TakingAt (u + 1) con taken hi n →
      wp ρ.consumerSide Q (k (BitVec.ofNat 32 con.length)) (u + 1)) :
    wp ρ.consumerSide Q (.act .readOut k) t := by
  refine wp_timed_act TakingAt.calm h (fun u _ hu => ⟨hu.1.counters.consumes, ?_⟩) ?_
  · rintro i (hi | hi) <;> cases hi
  · rintro u r htu hu ⟨-, hr, hnext⟩
    obtain ⟨hmem, htaken⟩ := Prod.mk.inj hnext
    have hout : (ρ.mem u).out = BitVec.ofNat 32 con.length := by
      rw [hu.1.counters.out_eq, hu.1.consumed]
    obtain rfl := hr.trans hout
    exact hk u htu ⟨hmem ▸ hu.1, htaken.trans hu.2⟩

/-- Reading `in` at time `u` shows how far the producer has got by then. -/
theorem wp_readIn' {k : Unsigned → QueueProg T α} (h : ρ.TakingAt t con taken hi n)
    (hk : ∀ u, t ≤ u → ρ.ConsumerPerforms u .readIn → ρ.TakingAt u con taken hi n →
      ρ.TakingAt (u + 1) con taken (ρ.mem u).published.length n →
      wp ρ.consumerSide Q (k (BitVec.ofNat 32 (ρ.mem u).published.length)) (u + 1)) :
    wp ρ.consumerSide Q (.act .readIn k) t := by
  refine wp_timed_act TakingAt.calm h (fun u _ hu => ⟨hu.1.counters.consumes, ?_⟩) ?_
  · rintro i (hi | hi) <;> cases hi
  · rintro u r htu hu ⟨hperf, hr, hnext⟩
    obtain ⟨hmem, htaken⟩ := Prod.mk.inj hnext
    obtain rfl := hr.trans hu.1.counters.in_eq
    exact hk u htu hperf hu ⟨hmem ▸ hu.raise.1, htaken.trans hu.2⟩

/-- Reading the next slot. -/
theorem wp_readSlot {k : T → QueueProg T α} (h : ρ.TakingAt t con taken hi n)
    (hlt : con.length + taken.length < hi)
    (hk : ∀ u v, t ≤ u → ρ.TakingAt (u + 1) con (taken ++ [v]) hi n →
      wp ρ.consumerSide Q (k v) (u + 1)) :
    wp ρ.consumerSide Q (.act (.readSlot (capacity.slot (con.length + taken.length))) k) t := by
  refine wp_timed_act TakingAt.calm h (fun u _ hu => ⟨hu.1.counters.consumes, ?_⟩) ?_
  · rintro i (hi | hi)
    · obtain rfl := Access.readSlot.inj hi
      exact hu.1.next_inWindow hlt
    · cases hi
  · rintro u r htu hu ⟨-, hr, hnext⟩
    obtain ⟨hmem, htaken⟩ := Prod.mk.inj hnext
    obtain rfl := hr
    exact hk u _ htu ⟨hmem ▸ hu.1.read hlt, htaken.trans (by rw [hu.2])⟩

/-- Moving out of the next slot, which is emptied. -/
theorem wp_moveSlot {k : T → QueueProg T α} (h : ρ.TakingAt t con taken hi n)
    (hlt : con.length + taken.length < hi)
    (hk : ∀ u v, t ≤ u → ρ.TakingAt (u + 1) con (taken ++ [v]) hi (taken.length + 1) →
      wp ρ.consumerSide Q (k v) (u + 1)) :
    wp ρ.consumerSide Q (.act (.moveSlot (capacity.slot (con.length + taken.length))) k) t := by
  refine wp_timed_act TakingAt.calm h (fun u _ hu => ⟨(hu.1.move _ hlt).1, ?_⟩) ?_
  · rintro i (hi | hi)
    · cases hi
    · obtain rfl := Access.moveSlot.inj hi
      exact hu.1.next_inWindow hlt
  · rintro u r htu hu ⟨-, hr, hnext⟩
    obtain ⟨hmem, htaken⟩ := Prod.mk.inj hnext
    obtain rfl := hr
    exact hk u _ htu ⟨hmem ▸ (hu.1.move _ hlt).2, htaken.trans (by rw [hu.2])⟩

/-- Bumping `out` past `m` of the values taken. -/
theorem wp_writeOut {k : Unit → QueueProg T α} {m : Nat} (h : ρ.TakingAt t con taken hi n)
    (hm : m ≤ taken.length) (hn : n ≤ m)
    (hk : ∀ u, t ≤ u → ρ.TakingAt (u + 1) (con ++ taken.take m) (taken.drop m) hi 0 →
      wp ρ.consumerSide Q (k ()) (u + 1)) :
    wp ρ.consumerSide Q (.act (.writeOut (BitVec.ofNat 32 (con.length + m))) k) t := by
  refine wp_timed_act TakingAt.calm h
    (fun u _ hu => ⟨by rw [hu.2]; exact (hu.1.bump elem hm hn).1, ?_⟩) ?_
  · rintro i (hi | hi) <;> cases hi
  · rintro u r htu hu ⟨-, -, hnext⟩
    obtain ⟨-, hnew, hrest⟩ := hu.1.bump elem hm hn
    rw [hu.2] at hnext
    obtain ⟨hmem, htaken⟩ := Prod.mk.inj (hnext.trans (Prod.mk.eta).symm)
    exact hk u htu ⟨hmem ▸ hnew, htaken.trans hrest⟩

end

end RingRun

end LockFreeRingBuf
