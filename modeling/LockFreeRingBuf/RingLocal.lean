import LockFreeRingBuf.RingSpec
import LockFreeRingBuf.RingThreads

/-!
# The calls of the ring, one thread at a time

What the call of one thread does, whatever memory it runs on. Of the other
thread it learns by reading a counter only, and all it relies on is that such
a counter never goes back and stays within one ring of its own; which of the
counter's values so far the read returns, the latest or an earlier one, does
not matter. `Supply` is the producer's own knowledge between its accesses,
`Demand` the consumer's. The access rules say which access each may make: the
producer stores to the slot after the last it has filled, if that is free, and
then bumps `in` past what it has stored; the consumer reads the slot after the
last it has taken, if that is filled, and then bumps `out` past what it has
taken.
-/

namespace LockFreeRingBuf

open Resumption

variable {T : Type}

inductive RingThread where
  | producer
  | consumer
  deriving DecidableEq

/-- The producer has published `pub` and offers `offer`, the first `n` values of
which stand in their slots; it has seen `lo` values consumed. -/
structure Supply (T : Type) where
  pub : List T
  offer : List T
  lo : Nat
  n : Nat

/-- The consumer has consumed `con` and taken `taken`, and may have emptied the
slots of the first `n` of these; it has seen `hi` values published. -/
structure Demand (T : Type) where
  con : List T
  taken : List T
  hi : Nat
  n : Nat

section

variable (capacity : Capacity)

/-- What an access of the producer answers, and what it makes of its knowledge. -/
def Supply.next : (a : Access T) → Supply T → a.Answer → Supply T → Prop
  | .readIn, w, r, w' => r = BitVec.ofNat 32 w.pub.length ∧ w' = w
  | .readOut, w, r, w' =>
    ∃ m, w.lo ≤ m ∧ m ≤ w.pub.length ∧ r = BitVec.ofNat 32 m ∧ w' = { w with lo := m }
  | .writeSlot _ _, w, _, w' => w' = { w with n := w.n + 1 }
  | .writeIn _, w, _, w' => w' = ⟨w.pub ++ w.offer.take w.n, w.offer.drop w.n, w.lo, 0⟩
  | _, _, _, _ => False

/-- The accesses the producer may make. -/
def Supply.Allows : Access T → Supply T → Prop
  | .readIn, _ => True
  | .readOut, _ => True
  | .writeSlot i t, w => i = capacity.slot (w.pub.length + w.n) ∧ w.offer[w.n]? = some t
    ∧ w.pub.length + w.n < w.lo + capacity.size
  | .writeIn v, w => v = BitVec.ofNat 32 (w.pub.length + w.n) ∧ w.n ≤ w.offer.length
  | _, _ => False

/-- What an access of the consumer answers, and what it makes of its knowledge. -/
def Demand.next : (a : Access T) → Demand T → a.Answer → Demand T → Prop
  | .readOut, w, r, w' => r = BitVec.ofNat 32 w.con.length ∧ w' = w
  | .readIn, w, r, w' => ∃ m, w.hi ≤ m ∧ m ≤ w.con.length + capacity.size
    ∧ r = BitVec.ofNat 32 m ∧ w' = { w with hi := m }
  | .readSlot _, w, t, w' => w' = { w with taken := w.taken ++ [t] }
  | .moveSlot _, w, t, w' => w' = { w with taken := w.taken ++ [t], n := w.taken.length + 1 }
  | .writeOut v, w, _, w' =>
    let k := (v - BitVec.ofNat 32 w.con.length).toNat
    w' = ⟨w.con ++ w.taken.take k, w.taken.drop k, w.hi, 0⟩
  | _, _, _, _ => False

/-- A bump of `out` by `x` releases the first `x` values taken. -/
theorem Demand.next_writeOut {con taken : List T} {hi n x : Nat} (hx : x < 2 ^ 32) :
    Demand.next capacity (.writeOut (BitVec.ofNat 32 (con.length + x))) ⟨con, taken, hi, n⟩ ()
      ⟨con ++ taken.take x, taken.drop x, hi, 0⟩ := by
  have hcount : (BitVec.ofNat 32 (con.length + x) - BitVec.ofNat 32 con.length).toNat = x := by
    rw [Counter.sub_ofNat (Nat.le_add_right _ x) (by omega), Nat.add_sub_cancel_left]
  simp only [Demand.next, hcount]

/-- The accesses the consumer may make. -/
def Demand.Allows : Access T → Demand T → Prop
  | .readIn, _ => True
  | .readOut, _ => True
  | .readSlot i, w => i = capacity.slot (w.con.length + w.taken.length)
    ∧ w.con.length + w.taken.length < w.hi
  | .moveSlot i, w => i = capacity.slot (w.con.length + w.taken.length)
    ∧ w.con.length + w.taken.length < w.hi
  | .writeOut v, w => ∃ k, v = BitVec.ofNat 32 (w.con.length + k) ∧ k ≤ w.taken.length ∧ w.n ≤ k
  | _, _ => False

def supplySide : Side (Access T) Access.Answer (Supply T) :=
  alone Supply.next (Supply.Allows capacity)

def demandSide : Side (Access T) Access.Answer (Demand T) :=
  alone (Demand.next capacity) (Demand.Allows capacity)

end

variable {capacity : Capacity} {α : Type}

/-! ## The producer's accesses -/

section

variable {Q : α → Supply T → Prop} {pub offer : List T} {lo n : Nat}

theorem supply_ret {x : α} {w : Supply T} (h : Q x w) : wp (supplySide capacity) Q (.ret x) w :=
  wp_alone_ret.mpr h

theorem supply_readIn {k : Unsigned → QueueProg T α}
    (h : wp (supplySide capacity) Q (k (BitVec.ofNat 32 pub.length)) ⟨pub, offer, lo, n⟩) :
    wp (supplySide capacity) Q (.act .readIn k) ⟨pub, offer, lo, n⟩ := by
  apply wp_alone_act.mpr
  constructor
  · trivial
  · rintro r w ⟨rfl, rfl⟩
    exact h

theorem supply_readOut {k : Unsigned → QueueProg T α}
    (h : ∀ m, lo ≤ m → m ≤ pub.length →
      wp (supplySide capacity) Q (k (BitVec.ofNat 32 m)) ⟨pub, offer, m, n⟩) :
    wp (supplySide capacity) Q (.act .readOut k) ⟨pub, offer, lo, n⟩ := by
  apply wp_alone_act.mpr
  constructor
  · trivial
  · rintro r w ⟨m, hlo, hm, rfl, rfl⟩
    exact h m hlo hm

theorem supply_writeSlot {k : Unit → QueueProg T α} {t : T} (ht : offer[n]? = some t)
    (hroom : pub.length + n < lo + capacity.size)
    (h : wp (supplySide capacity) Q (k ()) ⟨pub, offer, lo, n + 1⟩) :
    wp (supplySide capacity) Q (.act (.writeSlot (capacity.slot (pub.length + n)) t) k)
      ⟨pub, offer, lo, n⟩ := by
  apply wp_alone_act.mpr
  constructor
  · exact ⟨rfl, ht, hroom⟩
  · rintro r w rfl
    exact h

/-- `in += x` publishes the `x` values stored. -/
theorem supply_addIn {k : Unit → QueueProg T α} {x : Unsigned} (hx : x.toNat ≤ offer.length)
    (h : wp (supplySide capacity) Q (k ())
      ⟨pub ++ offer.take x.toNat, offer.drop x.toNat, lo, 0⟩) :
    wp (supplySide capacity) Q (addIn x >>= k) ⟨pub, offer, lo, x.toNat⟩ := by
  rw [addIn_bind]
  apply supply_readIn
  apply wp_alone_act.mpr
  constructor
  · refine ⟨?_, hx⟩
    rw [← Counter.ofNat_add_bits]
  · rintro r w rfl
    exact h

/-- The free slots that the producer counts when it has seen `m` values consumed. -/
theorem free_toNat_local {p m : Nat} (hm : m ≤ p) (hroom : p ≤ m + capacity.size) :
    (capacity.val - BitVec.ofNat 32 p + BitVec.ofNat 32 m).toNat = capacity.size - (p - m) := by
  rw [Counter.free_ofNat hm (by unfold Capacity.size at hroom; omega)]
  rfl

/-- The fullness test, when the producer has seen `m` values consumed. -/
theorem full_iff_local {p m : Nat} (hm : m ≤ p) (hroom : p ≤ m + capacity.size) :
    capacity.val - BitVec.ofNat 32 p + BitVec.ofNat 32 m = 0#32 ↔ p = m + capacity.size := by
  rw [← BitVec.toNat_inj, free_toNat_local hm hroom, BitVec.toNat_ofNat, Nat.zero_mod]
  omega

end

/-! ## The producer's calls -/

/-- How a call of the producer may end; `none` sends a spinning call round again. -/
inductive ProducerEnds (capacity : Capacity) :
    ProducerCall T → Option ProducerAnswer → Supply T → Prop
  | pushed {t pub lo} :
      ProducerEnds capacity (.tryPush t) (some (.verdict true)) ⟨pub ++ [t], [], lo, 0⟩
  | refused {t pub lo} :
      ProducerEnds capacity (.tryPush t) (some (.verdict false)) ⟨pub, [t], lo, 0⟩
  | waiting {t pub lo} : ProducerEnds capacity (.waitPush t) none ⟨pub, [t], lo, 0⟩
  | waited {t pub lo} : ProducerEnds capacity (.waitPush t) (some .done) ⟨pub ++ [t], [], lo, 0⟩
  | counted {ret n pub offer lo} {r : CInt} : r.toNat ≤ n.toNat →
      ProducerEnds capacity (.push ret n) (some (.count r))
        ⟨pub ++ firstN ret r.toNat, offer, lo, 0⟩
  | noSlot {pub lo} : ProducerEnds capacity .tryReserve1 (some (.slot none)) ⟨pub, [], lo, 0⟩
  | slot {c pub lo} : c = .tryReserve1 ∨ c = .reserve1 → pub.length < lo + capacity.size →
      ProducerEnds capacity c (some (.slot (some (capacity.slot pub.length)))) ⟨pub, [], lo, 0⟩
  | spinning {pub lo} : ProducerEnds capacity .reserve1 none ⟨pub, [], lo, 0⟩
  | finished {v pub lo} : ProducerEnds capacity .finish1 (some .done) ⟨pub ++ [v], [], lo, 0⟩

section

variable {pub offer : List T} {lo n : Nat}

/-- Storing one value and publishing it. -/
theorem supply_put {Q : α → Supply T → Prop} {k : Unit → QueueProg T α} {t : T}
    (hroom : pub.length < lo + capacity.size)
    (h : wp (supplySide capacity) Q (k ()) ⟨pub ++ [t], [], lo, 0⟩) :
    wp (supplySide capacity) Q
      (.act .readIn fun in_ => .act (.writeSlot (in_ &&& (capacity.val - 1#32)).toNat t) fun _ =>
        addIn 1#32 >>= k) ⟨pub, [t], lo, 0⟩ := by
  apply supply_readIn
  rw [capacity.mask_slot]
  apply supply_writeSlot rfl hroom
  exact supply_addIn (x := 1#32) (Nat.le_refl 1) h

/-- The test of the counters that every call but `finish_1` begins with. -/
theorem supply_test {Q : α → Supply T → Prop} {full free : Unsigned → Unsigned → QueueProg T α}
    (hroom : pub.length ≤ lo + capacity.size)
    (hfull : ∀ m in_ out, wp (supplySide capacity) Q (full in_ out) ⟨pub, offer, m, n⟩)
    (hfree : ∀ m in_ out, pub.length < m + capacity.size →
      wp (supplySide capacity) Q (free in_ out) ⟨pub, offer, m, n⟩) :
    wp (supplySide capacity) Q
      (.act .readIn fun in_ => .act .readOut fun out =>
        if capacity.val - in_ + out = 0#32 then full in_ out else free in_ out)
      ⟨pub, offer, lo, n⟩ := by
  apply supply_readIn
  apply supply_readOut
  intro m hlo hm
  have htest := full_iff_local hm (show pub.length ≤ m + capacity.size by omega)
  split
  · exact hfull m _ _
  · next hne =>
      have hroom' := mt htest.mpr hne
      exact hfree m _ _ (by omega)

/-- A segment of a bulk push. -/
theorem supply_storeSlots {Q : α → Supply T → Prop} {f : Unit → QueueProg T α} {ret : Nat → T}
    {N i k dst : Nat} (hN : i + k ≤ N)
    (hroom : pub.length + i + k ≤ lo + capacity.size)
    (hdst : ∀ x, x < k → dst + x = capacity.slot (pub.length + i + x))
    (h : wp (supplySide capacity) Q (f ()) ⟨pub, firstN ret N, lo, i + k⟩) :
    wp (supplySide capacity) Q (storeSlots ret dst i k >>= f) ⟨pub, firstN ret N, lo, i⟩ := by
  induction k generalizing i dst with
  | zero => exact h
  | succ k ih =>
      have hslot : dst = capacity.slot (pub.length + i) := hdst 0 (Nat.succ_pos k)
      show wp _ Q (.act (.writeSlot dst (ret i)) fun _ =>
        storeSlots ret (dst + 1) (i + 1) k >>= f) _
      rw [hslot]
      apply supply_writeSlot (firstN_getElem? ret (by omega)) (by omega)
      apply ih (by omega) (by omega)
      · intro x hx
        rw [← hslot, show pub.length + (i + 1) + x = pub.length + i + (x + 1) by omega,
          ← hdst (x + 1) (by omega)]
        omega
      · rwa [show i + 1 + k = i + (k + 1) by omega]

theorem pushWith_supplies {Q : CInt → Supply T → Prop} {ret : Nat → T} {x : CInt}
    (hroom : pub.length ≤ lo + capacity.size)
    (h : ∀ m offer (r : CInt), r.toNat ≤ x.toNat → Q r ⟨pub ++ firstN ret r.toNat, offer, m, 0⟩) :
    wp (supplySide capacity) Q (pushWith capacity (storeSlots ret) x)
      ⟨pub, firstN ret x.toNat, lo, 0⟩ := by
  simp only [pushWith, readIn_bind, readOut_bind, Prog.pure_eq]
  apply supply_readIn
  apply supply_readOut
  intro m hlo hm
  have hfree := free_toNat_local hm (show pub.length ≤ m + capacity.size by omega)
  have hlen := min_toNat x (capacity.val - BitVec.ofNat 32 pub.length + BitVec.ofNat 32 m)
  generalize min_ x (capacity.val - BitVec.ofNat 32 pub.length + BitVec.ofNat 32 m) = len
    at hlen ⊢
  split
  · have hnone := h m (firstN ret x.toNat) 0#32 (Nat.zero_le _)
    rw [show firstN ret (0#32).toNat = [] from rfl, List.append_nil] at hnone
    exact supply_ret hnone
  · apply supply_readIn
    obtain ⟨hsum, hfst, hsnd⟩ := capacity.segments pub.length len (by omega)
    rw [capacity.fifo_mask_slot]
    apply supply_storeSlots (by omega) (by omega) hfst
    rw [Nat.zero_add]
    apply supply_storeSlots (by omega) (by omega) hsnd
    · rw [hsum]
      apply supply_addIn (by rw [firstN_length]; omega)
      rw [firstN_take, Nat.min_eq_left (by omega)]
      exact supply_ret (h m _ len (by omega))

end

theorem push_eq (elem : Element T) (capacity : Capacity) (ret : Nat → T) (n : CInt) :
    SpscQueue.push elem capacity ret n = pushWith capacity (storeSlots ret) n := by
  simp only [SpscQueue.push, SpscWorker.pushTrivial, SpscWorker.pushNontrivial, ite_self]

theorem popBulk_eq (elem : Element T) (capacity : Capacity) (ret : Nat → T) (n : CInt) :
    ∃ fetch, (fetch = readSlot ∨ fetch = moveSlot)
      ∧ SpscQueue.popBulk elem capacity ret n = popWith capacity (loadSlots fetch) ret n := by
  simp only [SpscQueue.popBulk, SpscWorker.popTrivial, SpscWorker.popNontrivial]
  split
  · exact ⟨_, .inl rfl, rfl⟩
  · exact ⟨_, .inr rfl, rfl⟩

/-- Every call that begins at an idle producer keeps to its side. -/
theorem ProducerCall.supplies {elem : Element T} {c : ProducerCall T} {pub offer : List T}
    {lo : Nat} (hc : Producer.idle.offers c = some offer)
    (hroom : pub.length ≤ lo + capacity.size) :
    wp (supplySide capacity) (ProducerEnds capacity c) (c.body elem capacity)
      ⟨pub, offer, lo, 0⟩ := by
  cases c with
  | tryPush t =>
      obtain rfl := Option.some.inj hc
      apply wp_bind
      apply supply_test hroom
      · intro m in_ out
        exact supply_ret (supply_ret .refused)
      · intro m in_ out hfree
        apply supply_put hfree
        exact supply_ret (supply_ret .pushed)
  | waitPush t =>
      obtain rfl := Option.some.inj hc
      apply wp_bind
      apply supply_test hroom
      · intro m in_ out
        exact supply_ret (supply_ret .waiting)
      · intro m in_ out hfree
        apply supply_put hfree
        exact supply_ret (supply_ret .waited)
  | push ret n =>
      obtain rfl := Option.some.inj hc
      simp only [ProducerCall.body, push_eq]
      apply wp_bind
      apply pushWith_supplies hroom
      intro m offer r hr
      exact supply_ret (.counted hr)
  | tryReserve1 =>
      obtain rfl := Option.some.inj hc
      apply wp_bind
      apply supply_test hroom
      · intro m in_ out
        exact supply_ret (supply_ret .noSlot)
      · intro m in_ out hfree
        apply supply_readIn
        show wp _ _ (.ret (some (BitVec.ofNat 32 pub.length &&& capacity.mask).toNat)) _
        rw [capacity.fifo_mask_slot]
        exact supply_ret (supply_ret (.slot (.inl rfl) hfree))
  | reserve1 =>
      obtain rfl := Option.some.inj hc
      apply wp_bind
      apply supply_test hroom
      · intro m in_ out
        exact supply_ret (supply_ret .spinning)
      · intro m in_ out hfree
        apply supply_readIn
        show wp _ _ (.ret (some (BitVec.ofNat 32 pub.length &&& capacity.mask).toNat)) _
        rw [capacity.fifo_mask_slot]
        exact supply_ret (supply_ret (.slot (.inr rfl) hfree))
  | finish1 => cases hc

theorem ProducerCall.finish1_supplies {elem : Element T} {pub : List T} {v : T} {lo : Nat} :
    wp (supplySide capacity) (ProducerEnds capacity .finish1)
      (ProducerCall.finish1.body elem capacity) ⟨pub, [v], lo, 1⟩ := by
  apply wp_bind
  exact supply_addIn (x := 1#32) (show (1#32).toNat ≤ [v].length from Nat.le_refl 1)
    (supply_ret (supply_ret .finished))

/-! ## The consumer's accesses -/

section

variable {Q : α → Demand T → Prop} {con taken : List T} {hi n : Nat}

theorem demand_ret {x : α} {w : Demand T} (h : Q x w) : wp (demandSide capacity) Q (.ret x) w :=
  wp_alone_ret.mpr h

theorem demand_readOut {k : Unsigned → QueueProg T α}
    (h : wp (demandSide capacity) Q (k (BitVec.ofNat 32 con.length)) ⟨con, taken, hi, n⟩) :
    wp (demandSide capacity) Q (.act .readOut k) ⟨con, taken, hi, n⟩ := by
  apply wp_alone_act.mpr
  constructor
  · trivial
  · rintro r w ⟨rfl, rfl⟩
    exact h

theorem demand_readIn {k : Unsigned → QueueProg T α}
    (h : ∀ m, hi ≤ m → m ≤ con.length + capacity.size →
      wp (demandSide capacity) Q (k (BitVec.ofNat 32 m)) ⟨con, taken, m, n⟩) :
    wp (demandSide capacity) Q (.act .readIn k) ⟨con, taken, hi, n⟩ := by
  apply wp_alone_act.mpr
  constructor
  · trivial
  · rintro r w ⟨m, hhi, hm, rfl, rfl⟩
    exact h m hhi hm

/-- Fetching the value of the next slot, by a copy or by a move. -/
theorem demand_fetch {fetch : Nat → QueueProg T T} (hfetch : fetch = readSlot ∨ fetch = moveSlot)
    {k : T → QueueProg T α} (hlt : con.length + taken.length < hi)
    (h : ∀ t n, n ≤ taken.length + 1 →
      wp (demandSide capacity) Q (k t) ⟨con, taken ++ [t], hi, n⟩) (hn : n ≤ taken.length) :
    wp (demandSide capacity) Q (fetch (capacity.slot (con.length + taken.length)) >>= k)
      ⟨con, taken, hi, n⟩ := by
  rcases hfetch with rfl | rfl
  · apply wp_alone_act.mpr
    constructor
    · exact ⟨rfl, hlt⟩
    · rintro t w rfl
      exact h t n (Nat.le_succ_of_le hn)
  · apply wp_alone_act.mpr
    constructor
    · exact ⟨rfl, hlt⟩
    · rintro t w rfl
      exact h t _ (Nat.le_refl _)

/-- `out += x` releases the first `x` values taken. -/
theorem demand_addOut {k : Unit → QueueProg T α} {x : Unsigned} (hx : x.toNat ≤ taken.length)
    (hn : n ≤ x.toNat)
    (h : wp (demandSide capacity) Q (k ())
      ⟨con ++ taken.take x.toNat, taken.drop x.toNat, hi, 0⟩) :
    wp (demandSide capacity) Q (addOut x >>= k) ⟨con, taken, hi, n⟩ := by
  rw [addOut_bind]
  apply demand_readOut
  apply wp_alone_act.mpr
  constructor
  · exact ⟨x.toNat, Counter.ofNat_add_bits _ _, hx, hn⟩
  · rintro r w rfl
    rw [BitVec.add_comm, BitVec.add_sub_cancel]
    exact h

/-- The elements that the consumer counts when it has seen `m` values published. -/
theorem sub_toNat_local {m c : Nat} (hc : c ≤ m) (hroom : m ≤ c + capacity.size) :
    (BitVec.ofNat 32 m - BitVec.ofNat 32 c).toNat = m - c := by
  have hsize := capacity.size_le
  exact Counter.sub_ofNat hc (by omega)

end

/-! ## The consumer's calls -/

/-- How a call of the consumer may end. -/
inductive ConsumerEnds (capacity : Capacity) : ConsumerCall T → ConsumerAnswer T → Demand T → Prop
  | popped {t x con hi} : ConsumerEnds capacity (.pop t) (.popped true x) ⟨con ++ [x], [], hi, 0⟩
  | empty {t con hi} : ConsumerEnds capacity (.pop t) (.popped false t) ⟨con, [], hi, 0⟩
  | batch {ret n con vs hi} {r : CInt} : vs.length = r.toNat → r.toNat ≤ n.toNat →
      ConsumerEnds capacity (.popBulk ret n) (.batch r (overlay vs ret)) ⟨con ++ vs, [], hi, 0⟩
  | peeked {max con hi} {r : CInt} : r.toNat ≤ max.toNat → con.length + r.toNat ≤ hi →
      ConsumerEnds capacity (.peek max) (.peeked r (capacity.slot con.length)) ⟨con, [], hi, 0⟩
  | released {k con taken hi} : ConsumerEnds capacity (.consume k) .done ⟨con, taken, hi, 0⟩

/-- A call that returns leaves no slot emptied that it has not released. -/
theorem ConsumerEnds.emptied {c : ConsumerCall T} {ans : ConsumerAnswer T} {con taken : List T}
    {hi n : Nat} (h : ConsumerEnds capacity c ans ⟨con, taken, hi, n⟩) : n = 0 := by
  cases h <;> rfl

/-- `ret'` is `ret` with `ts` from place `dst` on. -/
structure Loaded (ret ret' : Nat → T) (dst : Nat) (ts : List T) : Prop where
  inside : ∀ i, i < ts.length → ts[i]? = some (ret' (dst + i))
  outside : ∀ i, i < dst ∨ dst + ts.length ≤ i → ret' i = ret i

theorem Loaded.nil (ret : Nat → T) (dst : Nat) : Loaded ret ret dst [] where
  inside _ hi := absurd hi (Nat.not_lt_zero _)
  outside _ _ := rfl

theorem Loaded.cons {ret ret' : Nat → T} {dst : Nat} {t : T} {ts : List T}
    (h : Loaded (setSlot ret dst t) ret' (dst + 1) ts) : Loaded ret ret' dst (t :: ts) where
  inside i hi := by
    cases i with
    | zero =>
        have hsame := h.outside dst (.inl (Nat.lt_succ_self dst))
        simp [hsame]
    | succ i =>
        rw [List.getElem?_cons_succ, h.inside i (Nat.lt_of_succ_lt_succ hi)]
        congr 2; omega
  outside i hi := by
    rw [List.length_cons] at hi
    rw [h.outside i (by omega), setSlot_of_ne _ (by omega)]

/-- Two segments, one after the other, fill the front of the caller's array. -/
theorem Loaded.overlay {ret ret₁ ret₂ : Nat → T} {ts us : List T} (h₁ : Loaded ret ret₁ 0 ts)
    (h₂ : Loaded ret₁ ret₂ ts.length us) : ret₂ = overlay (ts ++ us) ret := by
  have hlength : (ts ++ us).length = ts.length + us.length := List.length_append
  rw [← List.take_of_length_le (Nat.le_refl (ts ++ us).length)]
  apply overlay_eq (Nat.le_refl _)
  · intro i hi
    rcases Nat.lt_or_ge i ts.length with hfst | hsnd
    · rw [List.getElem?_append_left hfst, h₂.outside i (.inl hfst), h₁.inside i hfst, Nat.zero_add]
    · rw [List.getElem?_append_right hsnd, h₂.inside (i - ts.length) (by omega)]
      congr 2; omega
  · intro i hi
    rw [h₂.outside i (.inr (by omega)), h₁.outside i (.inr (by omega))]

section

variable {con taken : List T} {hi n : Nat}

/-- A segment of a bulk pop. -/
theorem demand_loadSlots {Q : α → Demand T → Prop} {f : (Nat → T) → QueueProg T α}
    {fetch : Nat → QueueProg T T} (hfetch : fetch = readSlot ∨ fetch = moveSlot) {ret : Nat → T}
    {k dst src : Nat} (hhi : con.length + taken.length + k ≤ hi)
    (hsrc : ∀ x, x < k → src + x = capacity.slot (con.length + taken.length + x))
    (hn : n ≤ taken.length)
    (h : ∀ vs n ret', vs.length = k → Loaded ret ret' dst vs → n ≤ taken.length + k →
      wp (demandSide capacity) Q (f ret') ⟨con, taken ++ vs, hi, n⟩) :
    wp (demandSide capacity) Q (loadSlots fetch ret dst src k >>= f) ⟨con, taken, hi, n⟩ := by
  induction k generalizing taken ret dst src n with
  | zero =>
      have hnone := h [] n ret rfl (.nil ret dst) hn
      rwa [List.append_nil] at hnone
  | succ k ih =>
      have hslot : src = capacity.slot (con.length + taken.length) := hsrc 0 (Nat.succ_pos k)
      have hbind : loadSlots fetch ret dst src (k + 1) >>= f = fetch src >>= fun t =>
          loadSlots fetch (setSlot ret dst t) (dst + 1) (src + 1) k >>= f := by
        rcases hfetch with rfl | rfl <;> rfl
      rw [hbind, hslot]
      apply demand_fetch hfetch (by omega) _ hn
      intro t n hn
      apply ih
      · rw [List.length_append, List.length_singleton]
        omega
      · intro x hx
        rw [← hslot, List.length_append, List.length_singleton,
          show con.length + (taken.length + 1) + x = con.length + taken.length + (x + 1) by omega,
          ← hsrc (x + 1) (by omega)]
        omega
      · rw [List.length_append, List.length_singleton]
        exact hn
      · intro vs n ret' hvs hloaded hn
        rw [List.length_append, List.length_singleton] at hn
        have hall := h (t :: vs) n ret' (by rw [List.length_cons, hvs]) hloaded.cons (by omega)
        rwa [List.append_cons] at hall

theorem pop_demands {Q : Bool × T → Demand T → Prop} {t : T} (hcon : con.length ≤ hi)
    (hempty : ∀ hi, Q (false, t) ⟨con, [], hi, 0⟩)
    (hpop : ∀ hi x, Q (true, x) ⟨con ++ [x], [], hi, 0⟩) :
    wp (demandSide capacity) Q (SpscQueue.pop capacity t) ⟨con, [], hi, 0⟩ := by
  simp only [SpscQueue.pop, readIn_bind, readOut_bind, Prog.pure_eq]
  apply demand_readIn
  intro m hhi hm
  apply demand_readOut
  have havail := sub_toNat_local (c := con.length) (by omega) hm
  split
  · exact demand_ret (hempty m)
  · next hne =>
      have hpos : m - con.length ≠ 0 := fun hzero =>
        hne (BitVec.eq_of_toNat_eq (havail.trans hzero))
      apply demand_readOut
      rw [capacity.mask_slot]
      apply demand_fetch (.inr rfl) (by simp only [List.length_nil]; omega) _ (Nat.le_refl 0)
      intro x n hn
      apply demand_addOut (x := 1#32) (show (1#32).toNat ≤ [x].length from Nat.le_refl 1) hn
      exact demand_ret (hpop m x)

theorem popWith_demands {Q : CInt × (Nat → T) → Demand T → Prop} {fetch : Nat → QueueProg T T}
    (hfetch : fetch = readSlot ∨ fetch = moveSlot) {ret : Nat → T} {x : CInt}
    (hcon : con.length ≤ hi)
    (h : ∀ hi vs (r : CInt), vs.length = r.toNat → r.toNat ≤ x.toNat →
      Q (r, overlay vs ret) ⟨con ++ vs, [], hi, 0⟩) :
    wp (demandSide capacity) Q (popWith capacity (loadSlots fetch) ret x) ⟨con, [], hi, 0⟩ := by
  simp only [popWith, readIn_bind, readOut_bind, Prog.pure_eq]
  apply demand_readIn
  intro m hhi hm
  apply demand_readOut
  have havail := sub_toNat_local (c := con.length) (by omega) hm
  have hlen := min_toNat x (BitVec.ofNat 32 m - BitVec.ofNat 32 con.length)
  generalize min_ x (BitVec.ofNat 32 m - BitVec.ofNat 32 con.length) = len at hlen ⊢
  split
  · have hnone := h m [] 0#32 rfl (Nat.zero_le _)
    rw [List.append_nil] at hnone
    exact demand_ret hnone
  · apply demand_readOut
    obtain ⟨hsum, hfst, hsnd⟩ := capacity.segments con.length len (by omega)
    rw [capacity.fifo_mask_slot]
    apply demand_loadSlots hfetch (by simp only [List.length_nil]; omega) (by simpa using hfst)
      (Nat.le_refl 0)
    intro ts n₁ ret₁ hts hloaded₁ hn₁
    rw [List.nil_append]
    rw [List.length_nil, Nat.zero_add] at hn₁
    apply demand_loadSlots hfetch (by omega) (by rwa [hts]) (by omega)
    intro us n₂ ret₂ hus hloaded₂ hn₂
    have hall : (ts ++ us).length = len.toNat := by
      rw [List.length_append]
      omega
    apply demand_addOut (Nat.le_of_eq hall.symm) (by omega)
    rw [List.take_of_length_le (Nat.le_of_eq hall), List.drop_of_length_le (Nat.le_of_eq hall)]
    rw [← hts] at hloaded₂
    rw [hloaded₁.overlay hloaded₂]
    exact demand_ret (h m _ len hall (by omega))

end

/-- Every call that begins at an idle consumer keeps to its side. -/
theorem ConsumerCall.demands {elem : Element T} {c : ConsumerCall T} {con : List T} {hi : Nat}
    (hc : Consumer.idle.starts c = some []) (hcon : con.length ≤ hi) :
    wp (demandSide capacity) (ConsumerEnds capacity c) (c.body elem capacity)
      ⟨con, [], hi, 0⟩ := by
  cases c with
  | pop t =>
      apply wp_bind
      apply pop_demands hcon
      · intro hi
        exact demand_ret .empty
      · intro hi x
        exact demand_ret .popped
  | popBulk ret n =>
      obtain ⟨fetch, hfetch, hpop⟩ := popBulk_eq elem capacity ret n
      simp only [ConsumerCall.body, hpop]
      apply wp_bind
      apply popWith_demands hfetch hcon
      intro hi vs r hvs hr
      exact demand_ret (.batch hvs hr)
  | peek max =>
      apply wp_bind
      apply demand_readIn
      intro m hhi hm
      apply demand_readOut
      apply demand_readOut
      have hcount := min_toNat max (BitVec.ofNat 32 m - BitVec.ofNat 32 con.length)
      rw [sub_toNat_local (by omega) hm] at hcount
      show wp _ _ (.ret (_, (BitVec.ofNat 32 con.length &&& capacity.mask).toNat)) _
      rw [capacity.fifo_mask_slot]
      generalize min_ max (BitVec.ofNat 32 m - BitVec.ofNat 32 con.length) = r at hcount ⊢
      have hmax : r.toNat ≤ max.toNat := by omega
      have hseen : con.length + r.toNat ≤ m := by omega
      exact demand_ret (demand_ret (.peeked hmax hseen))
  | consume k => cases hc

theorem ConsumerCall.consume_demands {elem : Element T} {con taken : List T} {hi : Nat}
    {k : Unsigned} (hk : k.toNat ≤ taken.length) :
    wp (demandSide capacity) (ConsumerEnds capacity (.consume k))
      ((ConsumerCall.consume k).body elem capacity) ⟨con, taken, hi, 0⟩ := by
  apply wp_bind
  exact demand_addOut hk (Nat.zero_le _) (demand_ret (demand_ret .released))

end LockFreeRingBuf
