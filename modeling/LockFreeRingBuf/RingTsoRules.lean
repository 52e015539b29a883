import LockFreeRingBuf.RingRules
import LockFreeRingBuf.RingTso

/-!
# What the buffers hold back

`issued` is the memory with both buffers drained. On it the counters and the
slots are as on a machine without buffers, so the rules of `RingRules` apply
there. What a thread sees differs from it in the other thread's stores only:
in that thread's counter, which it sees at some earlier value, and in slots
that are none of its business, since the other thread still stores to them.
-/

namespace LockFreeRingBuf

open Resumption Transition StoreBuffer

variable {T : Type} {elem : Element T} {capacity : Capacity}

/-! ## The stores in one buffer -/

/-- A buffer whose thread has its counter at `n` in memory and at `last` for
itself: bumps from one to the other, and between them stores to slots of
positions that the counter in memory has not passed by then, below `limit`. -/
inductive Pending (capacity : Capacity) (bump : Unsigned → Store T) (limit : Nat) :
    Nat → Nat → List (Store T) → Prop
  | nil {n} : Pending capacity bump limit n n []
  | slot {n last j t ws} : n ≤ j → j < limit → Pending capacity bump limit n last ws →
      Pending capacity bump limit n last (.slot (capacity.slot j) t :: ws)
  | counter {n m last ws} : n ≤ m → Pending capacity bump limit m last ws →
      Pending capacity bump limit n last (bump (BitVec.ofNat 32 m) :: ws)

namespace Pending

variable {bump : Unsigned → Store T} {limit n last : Nat} {ws : List (Store T)}

theorem le (h : Pending capacity bump limit n last ws) : n ≤ last := by
  induction h with
  | nil => exact Nat.le_refl _
  | slot _ _ _ ih => exact ih
  | counter hnm _ ih => exact Nat.le_trans hnm ih

theorem mono {limit' : Nat} (h : Pending capacity bump limit n last ws) (hle : limit ≤ limit') :
    Pending capacity bump limit' n last ws := by
  induction h with
  | nil => exact .nil
  | slot hj hlt _ ih => exact .slot hj (Nat.lt_of_lt_of_le hlt hle) ih
  | counter hnm _ ih => exact .counter hnm ih

theorem store {j : Nat} (h : Pending capacity bump limit n last ws) (hj : last ≤ j)
    (hlt : j < limit) (t : T) :
    Pending capacity bump limit n last (ws ++ [.slot (capacity.slot j) t]) := by
  induction h with
  | nil => exact .slot hj hlt .nil
  | slot hj' hlt' _ ih => exact .slot hj' hlt' (ih hj)
  | counter hnm _ ih => exact .counter hnm (ih hj)

theorem advance {m : Nat} (h : Pending capacity bump limit n last ws) (hm : last ≤ m) :
    Pending capacity bump limit n m (ws ++ [bump (BitVec.ofNat 32 m)]) := by
  induction h with
  | nil => exact .counter hm .nil
  | slot hj hlt _ ih => exact .slot hj hlt (ih hm)
  | counter hnm _ ih => exact .counter hnm (ih hm)

theorem cases_mem {w : Store T} (h : Pending capacity bump limit n last ws) (hw : w ∈ ws) :
    (∃ j t, n ≤ j ∧ j < limit ∧ w = .slot (capacity.slot j) t) ∨ ∃ v, w = bump v := by
  induction h with
  | nil => cases hw
  | slot hj hlt _ ih =>
      rcases List.mem_cons.mp hw with rfl | hw
      · exact .inl ⟨_, _, hj, hlt, rfl⟩
      · exact ih hw
  | counter hnm _ ih =>
      rcases List.mem_cons.mp hw with rfl | hw
      · exact .inr ⟨_, rfl⟩
      · rcases ih hw with ⟨j, t, hj, hlt, rfl⟩ | hbump
        · exact .inl ⟨j, t, Nat.le_trans hnm hj, hlt, rfl⟩
        · exact .inr hbump

/-- The oldest store. -/
theorem drains {w : Store T} (h : Pending capacity bump limit n last (w :: ws)) :
    (∃ j t, w = .slot (capacity.slot j) t ∧ Pending capacity bump limit n last ws)
      ∨ ∃ m, n ≤ m ∧ w = bump (BitVec.ofNat 32 m) ∧ Pending capacity bump limit m last ws := by
  cases h with
  | slot _ _ hrest => exact .inl ⟨_, _, rfl, hrest⟩
  | counter hnm hrest => exact .inr ⟨_, hnm, rfl, hrest⟩

end Pending

/-! ## Both buffers -/

/-- The memory and the histories with everything drained. -/
def TsoConfig.issued (s : TsoConfig T) : Shared T :=
  (s.showing (drain Store.apply (s.memory.buffer .consumer)
    (s.memory.view Store.apply .producer))).shared

/-- In memory `in` stands for `ins` values published, `out` for `outs` values
consumed. -/
structure Draining (capacity : Capacity) (s : TsoConfig T) (ins outs : Nat) : Prop where
  in_eq : s.memory.memory.in_ = BitVec.ofNat 32 ins
  out_eq : s.memory.memory.out = BitVec.ofNat 32 outs
  consumed_le : s.consumed.length ≤ ins
  room : s.published.length ≤ outs + capacity.size
  producer : Pending capacity .in_ (outs + capacity.size) ins s.published.length
    (s.memory.buffer .producer)
  consumer : Pending capacity .out ins outs s.consumed.length (s.memory.buffer .consumer)

/-- Stores to different slots commute. -/
theorem commutes_slot {i j : Nat} (h : i ≠ j) (t u : T) :
    Commutes Store.apply (.slot i t) (.slot j u) := by
  intro q
  simp only [Store.apply]
  congr 1
  funext x
  unfold setSlot
  split
  · next hi => rw [if_neg (by rw [hi]; exact h)]
  · rfl

/-- The slots of two positions that are apart, but by less than one ring. -/
theorem slot_ne {p q : Nat} (hlt : q < p) (hring : p < q + capacity.size) :
    capacity.slot p ≠ capacity.slot q := by
  intro heq
  have hpq := capacity.slot_inj q (Nat.le_of_lt hlt) (Nat.le_refl q) hring
    (Nat.lt_add_of_pos_right capacity.size_pos) heq
  omega

namespace Draining

variable {s : TsoConfig T} {ins outs : Nat}

theorem ins_le (h : Draining capacity s ins outs) : ins ≤ s.published.length := h.producer.le

theorem outs_le (h : Draining capacity s ins outs) : outs ≤ s.consumed.length := h.consumer.le

/-- A store to a slot that the producer may fill commutes with the consumer's. -/
theorem slot_commutes (h : Draining capacity s ins outs) {j : Nat} (hj : ins ≤ j)
    (hlt : j < outs + capacity.size) (t : T) :
    ∀ u ∈ s.memory.buffer .consumer, Commutes Store.apply (.slot (capacity.slot j) t) u := by
  intro u hu
  rcases h.consumer.cases_mem hu with ⟨q, t', hq, hqlt, rfl⟩ | ⟨v, rfl⟩
  · exact commutes_slot (slot_ne (by omega) (by omega)) t t'
  · exact fun _ => rfl

theorem commutes (h : Draining capacity s ins outs) :
    ∀ w ∈ s.memory.buffer .producer, ∀ u ∈ s.memory.buffer .consumer,
      Commutes Store.apply w u := by
  intro w hw u hu
  rcases h.producer.cases_mem hw with ⟨j, t, hj, hlt, rfl⟩ | ⟨v, rfl⟩
  · exact h.slot_commutes hj hlt t u hu
  · rcases h.consumer.cases_mem hu with ⟨q, t', _, _, rfl⟩ | ⟨v', rfl⟩ <;> exact fun _ => rfl

/-- The buffers may drain in either order. -/
theorem issued_eq (h : Draining capacity s ins outs) :
    s.issued = (s.showing (drain Store.apply (s.memory.buffer .producer)
      (s.memory.view Store.apply .consumer))).shared := by
  have hcomm := drain_comm h.commutes s.memory.memory
  rw [TsoConfig.issued, Buffered.view, Buffered.view, hcomm]

/-! ### What each thread sees -/

theorem producer_in (h : Draining capacity s ins outs) :
    (s.seenBy .producer).shared.in_ = s.issued.in_ := by
  symm
  apply read_drain (f := fun q : Fifo T => q.in_)
  intro u hu q
  rcases h.consumer.cases_mem hu with ⟨_, _, _, _, rfl⟩ | ⟨_, rfl⟩ <;> rfl

theorem producer_out (h : Draining capacity s ins outs) :
    (s.seenBy .producer).shared.out = BitVec.ofNat 32 outs := by
  rw [← h.out_eq]
  apply read_drain (f := fun q : Fifo T => q.out)
  intro w hw q
  rcases h.producer.cases_mem hw with ⟨_, _, _, _, rfl⟩ | ⟨_, rfl⟩ <;> rfl

theorem consumer_out (h : Draining capacity s ins outs) :
    (s.seenBy .consumer).shared.out = s.issued.out := by
  rw [h.issued_eq]
  symm
  apply read_drain (f := fun q : Fifo T => q.out)
  intro w hw q
  rcases h.producer.cases_mem hw with ⟨_, _, _, _, rfl⟩ | ⟨_, rfl⟩ <;> rfl

theorem consumer_in (h : Draining capacity s ins outs) :
    (s.seenBy .consumer).shared.in_ = BitVec.ofNat 32 ins := by
  rw [← h.in_eq]
  apply read_drain (f := fun q : Fifo T => q.in_)
  intro u hu q
  rcases h.consumer.cases_mem hu with ⟨_, _, _, _, rfl⟩ | ⟨_, rfl⟩ <;> rfl

/-- The producer sees what stands in a slot that it may fill. -/
theorem producer_slot (h : Draining capacity s ins outs) {j : Nat} (hj : ins ≤ j)
    (hlt : j < outs + capacity.size) :
    (s.seenBy .producer).shared.arr (capacity.slot j) = s.issued.arr (capacity.slot j) := by
  symm
  apply read_drain (f := fun q : Fifo T => q.arr (capacity.slot j))
  intro u hu q
  rcases h.consumer.cases_mem hu with ⟨i, t, hi, hilt, rfl⟩ | ⟨_, rfl⟩
  · exact setSlot_of_ne _ (slot_ne (by omega) (by omega)) _
  · rfl

/-- The consumer sees what stands in a slot of the values drained. -/
theorem consumer_slot (h : Draining capacity s ins outs) {j : Nat} (hj : outs ≤ j)
    (hlt : j < ins) :
    (s.seenBy .consumer).shared.arr (capacity.slot j) = s.issued.arr (capacity.slot j) := by
  rw [h.issued_eq]
  symm
  apply read_drain (f := fun q : Fifo T => q.arr (capacity.slot j))
  intro w hw q
  rcases h.producer.cases_mem hw with ⟨i, t, hi, hilt, rfl⟩ | ⟨_, rfl⟩
  · exact setSlot_of_ne _ (slot_ne (by omega) (by omega)).symm _
  · rfl

/-! ### Stores -/

/-- The stores of the producer are issued behind those of the consumer. -/
theorem issued_producer {ws : List (Store T)} {c : Config T}
    (hcomm : ∀ w ∈ ws, ∀ u ∈ s.memory.buffer .consumer, Commutes Store.apply w u) :
    (s.after .producer ws c).issued = { drain Store.apply ws s.issued.toFifo with
      published := c.shared.published, consumed := c.shared.consumed } := by
  have hview : (s.memory.store .producer ws).view Store.apply .producer
      = drain Store.apply ws (s.memory.view Store.apply .producer) := Buffered.store_view_self ws
  have hbuf : (s.memory.store .producer ws).buffer .consumer = s.memory.buffer .consumer :=
    Buffered.store_buffer_of_ne (by decide) ws
  have hswap := drain_comm hcomm (s.memory.view Store.apply .producer)
  simp only [TsoConfig.issued, TsoConfig.showing, TsoConfig.after, hview, hbuf, hswap]

theorem issued_consumer (ws : List (Store T)) (c : Config T) :
    (s.after .consumer ws c).issued = { drain Store.apply ws s.issued.toFifo with
      published := c.shared.published, consumed := c.shared.consumed } := by
  have hview : (s.memory.store .consumer ws).view Store.apply .producer
      = s.memory.view Store.apply .producer := Buffered.store_view_of_ne (by decide) ws
  simp only [TsoConfig.issued, TsoConfig.showing, TsoConfig.after, hview,
    Buffered.store_buffer_self, drain_append]

end Draining

/-- A bump of `in` by `n` publishes `n` values. -/
theorem Shared.produce_writeIn {s : Shared T} {offer : List T} {p n : Nat}
    (hin : s.in_ = BitVec.ofNat 32 p) (hn : n < 2 ^ 32) :
    s.produce elem offer (.writeIn (BitVec.ofNat 32 (p + n))) = ({ s with
      in_ := BitVec.ofNat 32 (p + n)
      published := s.published ++ offer.take n }, offer.drop n) := by
  have hcount : (BitVec.ofNat 32 (p + n) - s.in_).toNat = n := by
    rw [hin, Counter.sub_ofNat (Nat.le_add_right p n) (by omega), Nat.add_sub_cancel_left]
  simp only [Shared.produce, hcount]

/-- A bump of `out` by `n` releases `n` values. -/
theorem Shared.release_writeOut {s : Shared T} {taken : List T} {p n : Nat}
    (hout : s.out = BitVec.ofNat 32 p) (hn : n < 2 ^ 32) :
    s.release elem taken (.writeOut (BitVec.ofNat 32 (p + n))) () = ({ s with
      out := BitVec.ofNat 32 (p + n)
      consumed := s.consumed ++ taken.take n }, taken.drop n) := by
  have hcount : (BitVec.ofNat 32 (p + n) - s.out).toNat = n := by
    rw [hout, Counter.sub_ofNat (Nat.le_add_right p n) (by omega), Nat.add_sub_cancel_left]
  simp only [Shared.release, hcount]

/-! ## What the threads know -/

/-- What the producer knows, when `s` is the ring as issued and `outs` values
consumed have drained. -/
inductive ProducerKnows (capacity : Capacity) (s : Shared T) (outs : Nat) : Producer T → Prop
  | idle : ProducerKnows capacity s outs .idle
  | running {c offer p lo n} : lo ≤ outs → Offering capacity s s.published offer lo n →
      wp (supplySide capacity) (ProducerEnds capacity c) p ⟨s.published, offer, lo, n⟩ →
      ProducerKnows capacity s outs (.running c offer p)
  | reserved {v lo} : lo ≤ outs → Offering capacity s s.published [v] lo 1 →
      ProducerKnows capacity s outs (.reserved (capacity.slot s.published.length) v)

/-- What the consumer knows, when `s` is the ring as issued and `ins` values
published have drained. -/
inductive ConsumerKnows (capacity : Capacity) (s : Shared T) (ins : Nat) : Consumer T → Prop
  | idle {hi} : hi ≤ ins → Taking capacity s s.consumed [] hi 0 → ConsumerKnows capacity s ins .idle
  | running {c taken p hi n} : hi ≤ ins → Taking capacity s s.consumed taken hi n →
      wp (demandSide capacity) (ConsumerEnds capacity c) p ⟨s.consumed, taken, hi, n⟩ →
      ConsumerKnows capacity s ins (.running c taken p)
  | peeked {m taken hi} : hi ≤ ins → s.consumed.length + m.toNat ≤ hi →
      Taking capacity s s.consumed taken hi 0 →
      ConsumerKnows capacity s ins
        (.peeked m (capacity.slot (s.consumed.length + taken.length)) taken)

theorem ProducerKnows.consumes {s s' : Shared T} {outs outs' : Nat} {p : Producer T}
    (h : ProducerKnows capacity s outs p) (hs : Consumes capacity s s') (hle : outs ≤ outs') :
    ProducerKnows capacity s' outs' p := by
  cases h with
  | idle => exact .idle
  | running hlo hoff hwp =>
      have hnext := hoff.consumes hs
      rw [← hs.published] at hnext hwp
      exact .running (Nat.le_trans hlo hle) hnext hwp
  | reserved hlo hoff =>
      have hnext := hoff.consumes hs
      rw [← hs.published] at hnext ⊢
      exact .reserved (Nat.le_trans hlo hle) hnext

theorem ConsumerKnows.produces {s s' : Shared T} {ins ins' : Nat} {p : Consumer T}
    (h : ConsumerKnows capacity s ins p) (hs : Produces capacity s s') (hle : ins ≤ ins') :
    ConsumerKnows capacity s' ins' p := by
  cases h with
  | idle hhi htake =>
      have hnext := htake.produces hs
      rw [← hs.consumed] at hnext
      exact .idle (Nat.le_trans hhi hle) hnext
  | running hhi htake hwp =>
      have hnext := htake.produces hs
      rw [← hs.consumed] at hnext hwp
      exact .running (Nat.le_trans hhi hle) hnext hwp
  | peeked hhi hm htake =>
      have hnext := htake.produces hs
      rw [← hs.consumed] at hnext hm ⊢
      exact .peeked (Nat.le_trans hhi hle) hm hnext

/-- What every step keeps, when in memory `in` stands for `ins` and `out` for `outs`. -/
structure TsoOk (capacity : Capacity) (s : TsoConfig T) (ins outs : Nat) : Prop where
  counters : Counters capacity s.issued
  draining : Draining capacity s ins outs
  producer : ProducerKnows capacity s.issued outs s.producer
  consumer : ConsumerKnows capacity s.issued ins s.consumer

namespace TsoOk

variable {s : TsoConfig T} {ins outs : Nat}

/-- The producer has stored `ws`, which makes the ring as issued `s'`. -/
theorem producer_stores (h : TsoOk capacity s ins outs) {ws : List (Store T)} {c : Config T}
    {s' : Shared T}
    (hcomm : ∀ w ∈ ws, ∀ u ∈ s.memory.buffer .consumer, Commutes Store.apply w u)
    (hissued : { drain Store.apply ws s.issued.toFifo with
      published := c.shared.published, consumed := c.shared.consumed } = s')
    (hproduces : Produces capacity s.issued s')
    (hpending : Pending capacity .in_ (outs + capacity.size) ins c.shared.published.length
      (s.memory.buffer .producer ++ ws))
    (hroom : c.shared.published.length ≤ outs + capacity.size)
    (hcons : c.consumer = s.consumer) (hknows : ProducerKnows capacity s' outs c.producer) :
    TsoOk capacity (s.after .producer ws c) ins outs := by
  have hcon : c.shared.consumed = s.consumed := by
    rw [← hissued] at hproduces
    exact hproduces.consumed
  have hnext : (s.after .producer ws c).issued = s' := by
    rw [Draining.issued_producer hcomm, hissued]
  have hbuf : (s.after .producer ws c).memory.buffer .consumer = s.memory.buffer .consumer :=
    Buffered.store_buffer_of_ne (by decide) ws
  constructor
  · rw [hnext]
    exact hproduces.counters
  · constructor
    · exact h.draining.in_eq
    · exact h.draining.out_eq
    · show c.shared.consumed.length ≤ ins
      rw [hcon]
      exact h.draining.consumed_le
    · exact hroom
    · show Pending _ _ _ _ _ ((s.memory.store .producer ws).buffer .producer)
      rw [Buffered.store_buffer_self]
      exact hpending
    · rw [hbuf]
      show Pending _ _ _ _ c.shared.consumed.length _
      rw [hcon]
      exact h.draining.consumer
  · rw [hnext]
    exact hknows
  · rw [hnext]
    show ConsumerKnows _ _ _ c.consumer
    rw [hcons]
    exact h.consumer.produces hproduces (Nat.le_refl ins)

/-- The consumer has stored `ws`, which makes the ring as issued `s'`. -/
theorem consumer_stores (h : TsoOk capacity s ins outs) {ws : List (Store T)} {c : Config T}
    {s' : Shared T}
    (hissued : { drain Store.apply ws s.issued.toFifo with
      published := c.shared.published, consumed := c.shared.consumed } = s')
    (hconsumes : Consumes capacity s.issued s')
    (hpending : Pending capacity .out ins outs c.shared.consumed.length
      (s.memory.buffer .consumer ++ ws))
    (hle : c.shared.consumed.length ≤ ins)
    (hprod : c.producer = s.producer) (hknows : ConsumerKnows capacity s' ins c.consumer) :
    TsoOk capacity (s.after .consumer ws c) ins outs := by
  have hpub : c.shared.published = s.published := by
    rw [← hissued] at hconsumes
    exact hconsumes.published
  have hnext : (s.after .consumer ws c).issued = s' := by
    rw [Draining.issued_consumer, hissued]
  have hbuf : (s.after .consumer ws c).memory.buffer .producer = s.memory.buffer .producer :=
    Buffered.store_buffer_of_ne (by decide) ws
  constructor
  · rw [hnext]
    exact hconsumes.counters
  · constructor
    · exact h.draining.in_eq
    · exact h.draining.out_eq
    · exact hle
    · show c.shared.published.length ≤ outs + capacity.size
      rw [hpub]
      exact h.draining.room
    · rw [hbuf]
      show Pending _ _ _ _ c.shared.published.length _
      rw [hpub]
      exact h.draining.producer
    · show Pending _ _ _ _ _ ((s.memory.store .consumer ws).buffer .consumer)
      rw [Buffered.store_buffer_self]
      exact hpending
  · rw [hnext]
    show ProducerKnows _ _ _ c.producer
    rw [hprod]
    exact h.producer.consumes hconsumes (Nat.le_refl outs)
  · rw [hnext]
    exact hknows

/-- The producer has stored nothing. -/
theorem producer_stays (h : TsoOk capacity s ins outs) {c : Config T}
    (hpub : c.shared.published = s.published) (hcon : c.shared.consumed = s.consumed)
    (hcons : c.consumer = s.consumer) (hknows : ProducerKnows capacity s.issued outs c.producer) :
    TsoOk capacity (s.after .producer [] c) ins outs := by
  refine h.producer_stores ?_ ?_ h.counters.produces ?_ ?_ hcons hknows
  · intro w hw
    cases hw
  · rw [hpub, hcon]
    rfl
  · rw [hpub, List.append_nil]
    exact h.draining.producer
  · rw [hpub]
    exact h.draining.room

/-- The consumer has stored nothing. -/
theorem consumer_stays (h : TsoOk capacity s ins outs) {c : Config T}
    (hpub : c.shared.published = s.published) (hcon : c.shared.consumed = s.consumed)
    (hprod : c.producer = s.producer) (hknows : ConsumerKnows capacity s.issued ins c.consumer) :
    TsoOk capacity (s.after .consumer [] c) ins outs := by
  refine h.consumer_stores ?_ h.counters.consumes ?_ ?_ hprod hknows
  · rw [hpub, hcon]
    rfl
  · rw [hcon, List.append_nil]
    exact h.draining.consumer
  · rw [hcon]
    exact h.draining.consumed_le

/-- Between calls the producer has staged nothing, whatever it offers next. -/
theorem offering (h : TsoOk capacity s ins outs) (offer : List T) :
    Offering capacity s.issued s.issued.published offer outs 0 where
  counters := h.counters
  published := rfl
  lo_le := h.draining.outs_le
  room := h.draining.room
  staged _ hx := absurd hx (Nat.not_lt_zero _)

/-- A value of `out` that the producer reads. -/
theorem offering_seen (h : TsoOk capacity s ins outs) {offer : List T} {lo n : Nat}
    (hoff : Offering capacity s.issued s.issued.published offer lo n) (hlo : lo ≤ outs) :
    Offering capacity s.issued s.issued.published offer outs n :=
  { hoff with
    lo_le := h.draining.outs_le
    room := Nat.le_trans hoff.room (Nat.add_le_add_right hlo _) }

/-- The producer bumps `in` past the `n` values that it has stored. -/
theorem producer_publishes (h : TsoOk capacity s ins outs) {c : ProducerCall T} {offer : List T}
    {lo n : Nat} {p : QueueProg T (Option ProducerAnswer)} (hlo : lo ≤ outs)
    (hoff : Offering capacity s.issued s.issued.published offer lo n) (hn : n ≤ offer.length)
    (hp : wp (supplySide capacity) (ProducerEnds capacity c) p
      ⟨s.issued.published ++ offer.take n, offer.drop n, lo, 0⟩) :
    let v := s.seenBy .producer
    let w := BitVec.ofNat 32 (s.issued.published.length + n)
    TsoOk capacity (s.after .producer [.in_ w] { v with
      shared := (v.shared.produce elem offer (.writeIn w)).1
      producer := .running c (v.shared.produce elem offer (.writeIn w)).2 p }) ins outs := by
  intro v w
  have hroom : s.issued.published.length + n ≤ outs + capacity.size :=
    Nat.le_trans hoff.room (Nat.add_le_add_right hlo _)
  have hlt : n < 2 ^ 32 := by
    have hsize := capacity.size_le
    have hins := h.draining.outs_le
    have hle : s.consumed.length ≤ s.issued.published.length := h.counters.le
    omega
  have hin := h.counters.in_eq
  obtain ⟨hproduces, hnext, -⟩ := hoff.publish elem hn
  rw [Shared.produce_writeIn hin hlt] at hproduces hnext
  rw [Shared.produce_writeIn (h.draining.producer_in.trans hin) hlt]
  have hlength : (s.issued.published ++ offer.take n).length = s.issued.published.length + n := by
    rw [List.length_append, List.length_take, Nat.min_eq_left hn]
  refine h.producer_stores ?_ rfl hproduces ?_ ?_ rfl (.running hlo hnext hp)
  · intro u hu x hx
    obtain rfl := List.mem_singleton.mp hu
    rcases h.draining.consumer.cases_mem hx with ⟨_, _, _, _, rfl⟩ | ⟨_, rfl⟩ <;>
      exact fun _ => rfl
  · show Pending _ _ _ _ (s.issued.published ++ offer.take n).length _
    rw [hlength]
    exact h.draining.producer.advance (Nat.le_add_right _ _)
  · exact hlength.trans_le hroom

/-- One access of the producer. -/
theorem producer_access (h : TsoOk capacity s ins outs) {c : ProducerCall T} {offer : List T}
    {a : Access T} {k : a.Answer → QueueProg T (Option ProducerAnswer)}
    (hp : s.producer = .running c offer (.act a k)) :
    let v := s.seenBy .producer
    TsoOk capacity (s.after .producer (a.stores elem v.shared.toFifo) { v with
      shared := (v.shared.produce elem offer a).1
      producer := .running c (v.shared.produce elem offer a).2
        (k (v.shared.toFifo.perform elem a).1) }) ins outs := by
  intro v
  have hproducer := h.producer
  rw [hp] at hproducer
  cases hproducer with
  | @running _ _ _ lo n hlo hoff hwp =>
      have hallows := wp_ok hwp
      have hin : v.shared.in_ = BitVec.ofNat 32 s.published.length :=
        h.draining.producer_in.trans h.counters.in_eq
      cases a with
      | readIn =>
          apply h.producer_stays rfl rfl rfl
          exact .running hlo hoff (wp_next hwp ⟨hin, rfl⟩)
      | readOut =>
          apply h.producer_stays rfl rfl rfl
          have hle : outs ≤ s.issued.published.length :=
            Nat.le_trans h.draining.outs_le h.counters.le
          exact .running (Nat.le_refl outs) (h.offering_seen hoff hlo)
            (wp_next hwp ⟨outs, hlo, hle, h.draining.producer_out, rfl⟩)
      | writeSlot i t =>
          obtain ⟨rfl, ht, hroom⟩ := hallows
          obtain ⟨hproduces, hnext⟩ := hoff.store ht hroom
          have hins := h.draining.ins_le
          refine h.producer_stores ?_ rfl hproduces ?_ h.draining.room rfl
            (.running hlo hnext (wp_next hwp rfl))
          · intro w hw
            obtain rfl := List.mem_singleton.mp hw
            exact h.draining.slot_commutes (Nat.le_trans hins (Nat.le_add_right _ _))
              (Nat.lt_of_lt_of_le hroom (Nat.add_le_add_right hlo _)) t
          · exact h.draining.producer.store (Nat.le_add_right _ _)
              (Nat.lt_of_lt_of_le hroom (Nat.add_le_add_right hlo _)) t
      | writeIn w =>
          obtain ⟨rfl, hn⟩ := hallows
          apply h.producer_publishes hlo hoff hn
          exact wp_next hwp rfl
      | readSlot | moveSlot | writeOut => cases hallows

/-- A value of `in` that the consumer reads. -/
theorem taking_seen (h : TsoOk capacity s ins outs) {taken : List T} {hi n : Nat}
    (htake : Taking capacity s.issued s.issued.consumed taken hi n) (hhi : hi ≤ ins) :
    Taking capacity s.issued s.issued.consumed taken ins n :=
  { htake with
    hi_le := h.draining.ins_le
    taken_le := Nat.le_trans htake.taken_le hhi }

/-- What the consumer finds in the slot after those it has taken. -/
theorem consumer_next (h : TsoOk capacity s ins outs) {taken : List T} {hi : Nat} (hhi : hi ≤ ins)
    (hlt : s.issued.consumed.length + taken.length < hi) :
    let i := capacity.slot (s.issued.consumed.length + taken.length)
    (s.seenBy .consumer).shared.arr i = s.issued.arr i :=
  h.draining.consumer_slot (Nat.le_trans h.draining.outs_le (Nat.le_add_right _ _))
    (Nat.lt_of_lt_of_le hlt hhi)

theorem consumer_count (h : TsoOk capacity s ins outs) {taken : List T} {hi n x : Nat}
    (htake : Taking capacity s.issued s.issued.consumed taken hi n) (hx : x ≤ taken.length) :
    x < 2 ^ 32 := by
  have hsize := capacity.size_le
  have hroom : s.issued.published.length ≤ s.issued.consumed.length + capacity.size :=
    h.counters.room
  have hseen := htake.hi_le
  have htaken := htake.taken_le
  omega

/-- The consumer bumps `out` past `x` of the values that it has taken. -/
theorem consumer_releases (h : TsoOk capacity s ins outs) {c : ConsumerCall T} {taken : List T}
    {hi n x : Nat} {p : QueueProg T (ConsumerAnswer T)} (hhi : hi ≤ ins)
    (htake : Taking capacity s.issued s.issued.consumed taken hi n) (hx : x ≤ taken.length)
    (hn : n ≤ x)
    (hp : wp (demandSide capacity) (ConsumerEnds capacity c) p
      ⟨s.issued.consumed ++ taken.take x, taken.drop x, hi, 0⟩) :
    let v := s.seenBy .consumer
    let w := BitVec.ofNat 32 (s.issued.consumed.length + x)
    TsoOk capacity (s.after .consumer [.out w] { v with
      shared := (v.shared.release elem taken (.writeOut w) ()).1
      consumer := .running c (v.shared.release elem taken (.writeOut w) ()).2 p }) ins outs := by
  intro v w
  have hlt := h.consumer_count htake hx
  have hout := h.counters.out_eq
  obtain ⟨hconsumes, hnext, -⟩ := htake.bump elem hx hn
  rw [Shared.release_writeOut hout hlt] at hconsumes hnext
  rw [Shared.release_writeOut (h.draining.consumer_out.trans hout) hlt]
  have hlength : (s.issued.consumed ++ taken.take x).length = s.issued.consumed.length + x := by
    rw [List.length_append, List.length_take, Nat.min_eq_left hx]
  refine h.consumer_stores rfl hconsumes ?_ ?_ rfl (.running hhi hnext hp)
  · show Pending _ _ _ _ (s.issued.consumed ++ taken.take x).length _
    rw [hlength]
    exact h.draining.consumer.advance (Nat.le_add_right _ _)
  · have htaken := htake.taken_le
    show (s.issued.consumed ++ taken.take x).length ≤ ins
    omega

/-- One access of the consumer. -/
theorem consumer_access (h : TsoOk capacity s ins outs) {c : ConsumerCall T} {taken : List T}
    {a : Access T} {k : a.Answer → QueueProg T (ConsumerAnswer T)}
    (hc : s.consumer = .running c taken (.act a k)) :
    let v := s.seenBy .consumer
    let r := (v.shared.toFifo.perform elem a).1
    TsoOk capacity (s.after .consumer (a.stores elem v.shared.toFifo) { v with
      shared := (v.shared.release elem taken a r).1
      consumer := .running c (v.shared.release elem taken a r).2 (k r) }) ins outs := by
  intro v r
  have hconsumer := h.consumer
  rw [hc] at hconsumer
  cases hconsumer with
  | @running _ _ _ hi n hhi htake hwp =>
      have hallows := wp_ok hwp
      have hout : v.shared.out = BitVec.ofNat 32 s.consumed.length :=
        h.draining.consumer_out.trans h.counters.out_eq
      cases a with
      | readOut =>
          apply h.consumer_stays rfl rfl rfl
          exact .running hhi htake (wp_next hwp ⟨hout, rfl⟩)
      | readIn =>
          apply h.consumer_stays rfl rfl rfl
          have hroom : ins ≤ s.issued.consumed.length + capacity.size :=
            Nat.le_trans h.draining.ins_le h.counters.room
          exact .running (Nat.le_refl ins) (h.taking_seen htake hhi)
            (wp_next hwp ⟨ins, hhi, hroom, h.draining.consumer_in, rfl⟩)
      | readSlot i =>
          obtain ⟨rfl, hlt⟩ := hallows
          apply h.consumer_stays rfl rfl rfl
          have hslot : r = s.issued.arr _ := h.consumer_next hhi hlt
          rw [hslot]
          exact .running hhi (htake.read hlt) (wp_next hwp rfl)
      | moveSlot i =>
          obtain ⟨rfl, hlt⟩ := hallows
          have hslot : r = s.issued.arr (capacity.slot (s.issued.consumed.length + taken.length)) :=
            h.consumer_next hhi hlt
          obtain ⟨hconsumes, hnext⟩ := htake.move (elem.moved r) hlt
          rw [← hslot] at hnext
          refine h.consumer_stores rfl hconsumes ?_ h.draining.consumed_le rfl
            (.running hhi hnext (wp_next hwp rfl))
          exact h.draining.consumer.store (Nat.le_add_right _ _) (Nat.lt_of_lt_of_le hlt hhi) _
      | writeOut w =>
          obtain ⟨x, rfl, hx, hn⟩ := hallows
          apply h.consumer_releases hhi htake hx hn
          exact wp_next hwp (Demand.next_writeOut capacity (h.consumer_count htake hx))
      | writeSlot | writeIn => cases hallows

end TsoOk

end LockFreeRingBuf
