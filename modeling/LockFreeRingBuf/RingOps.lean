import LockFreeRingBuf.RingSides

/-!
# What each operation does, among the other thread's steps

One lemma for each operation of `RingQueue`, in terms of what its thread
knows when it is called and when it returns. A verdict that the queue is
full or empty, and a count, come with the time within the call at which
they were exact: the time of the read of the other thread's counter.
-/

namespace LockFreeRingBuf

open Resumption Transition

variable {T : Type} {elem : Element T} {capacity : Capacity}

namespace RingRun

variable {ρ : RingRun elem capacity} {t : Nat} {α : Type}

/-! ## Producer operations -/

section

variable {lo n : Nat} {pub offer : List T} {Q : α → Nat → Prop}

theorem OfferingAt.free_toNat (h : ρ.OfferingAt t pub offer lo n) :
    (capacity.val - BitVec.ofNat 32 pub.length
      + BitVec.ofNat 32 (ρ.mem t).consumed.length).toNat = capacity.size - (ρ.mem t).level := by
  rw [← h.1.published, ← h.1.counters.in_eq, ← h.1.counters.out_eq]
  exact h.1.counters.free_toNat

/-- The fullness test of the code, with the counters it has read. -/
theorem OfferingAt.full_iff (h : ρ.OfferingAt t pub offer lo n) :
    capacity.val - BitVec.ofNat 32 pub.length + BitVec.ofNat 32 (ρ.mem t).consumed.length = 0#32
      ↔ (ρ.mem t).level = capacity.size := by
  have hlevel := h.1.counters.level_le
  rw [← BitVec.toNat_inj, h.free_toNat, BitVec.toNat_ofNat, Nat.zero_mod]
  omega

theorem OfferingAt.room_of_not_full (h : ρ.OfferingAt t pub offer lo n)
    (hfull : ¬ (ρ.mem t).level = capacity.size) :
    pub.length < (ρ.mem t).consumed.length + capacity.size := by
  have hle := h.1.counters.level_le
  unfold Shared.level at hle hfull
  rw [h.1.published] at hle hfull
  omega

/-- `in += x` after storing as many offered values. -/
theorem wp_addIn {k : Unit → QueueProg T α} {x : Unsigned}
    (h : ρ.OfferingAt t pub offer lo x.toNat) (hx : x.toNat ≤ offer.length)
    (hk : ∀ u, t ≤ u → ρ.OfferingAt u (pub ++ offer.take x.toNat) (offer.drop x.toNat) lo 0 →
      wp ρ.producerSide Q (k ()) u) :
    wp ρ.producerSide Q (.act .readIn fun in_ => .act (.writeIn (in_ + x)) k) t := by
  refine wp_readIn h ?_
  intro a hta ha
  rw [Counter.ofNat_add_bits]
  exact wp_writeIn ha hx fun b hab hb => hk (b + 1) (by omega) hb

/-- Storing one offered value and publishing it. -/
theorem wp_put {k : Unit → QueueProg T α} {v : T} (h : ρ.OfferingAt t pub [v] lo 0)
    (hroom : pub.length < lo + capacity.size)
    (hk : ∀ u, t ≤ u → ρ.OfferingAt u (pub ++ [v]) [] lo 0 → wp ρ.producerSide Q (k ()) u) :
    wp ρ.producerSide Q
      (.act .readIn fun in_ =>
        .act (.writeSlot (in_ &&& (capacity.val - 1#32)).toNat v) fun _ =>
          .act .readIn fun in_ => .act (.writeIn (in_ + 1#32)) k) t := by
  refine wp_readIn h ?_
  intro a hta ha
  rw [capacity.mask_slot]
  refine wp_writeSlot ha rfl hroom ?_
  intro b hab hb
  exact wp_addIn (x := 1#32) hb (by simp) fun c hbc hc => hk c (by omega) hc

theorem tryPush_wp {Q : Bool → Nat → Prop} {v : T} (h : ρ.OfferingAt t pub [v] lo 0)
    (hfull : ∀ m u lo, t ≤ m → m < u → (ρ.mem m).level = capacity.size →
      ρ.OfferingAt u pub [v] lo 0 → Q false u)
    (hpush : ∀ u lo, ρ.OfferingAt u (pub ++ [v]) [] lo 0 → Q true u) :
    wp ρ.producerSide Q (SpscQueue.tryPush capacity v) t := by
  simp only [SpscQueue.tryPush, readIn_bind, readOut_bind, writeSlot_bind, addIn_bind,
    Prog.pure_eq]
  refine wp_readIn h ?_
  intro a hta ha
  refine wp_readOut ha ?_
  intro m ham _ hm hm'
  split
  · next hzero =>
      exact wp_offering_ret hm' fun u hmu hu =>
        hfull m u _ (by omega) (by omega) (hm.full_iff.mp hzero) hu
  · next hzero =>
      refine wp_put hm' (hm.room_of_not_full (mt hm.full_iff.mpr hzero)) ?_
      intro u _ hu
      exact wp_offering_ret hu fun w _ hw => hpush w _ hw

/-- One pass of a spinning `while`: it goes round again, or the rest runs
with a free slot at hand. -/
theorem whileFull_wp {β : Type} {Q : Option β → Nat → Prop} {rest : QueueProg T β}
    (h : ρ.OfferingAt t pub offer lo 0)
    (hagain : ∀ u lo, ρ.OfferingAt u pub offer lo 0 → Q none u)
    (hrest : ∀ u lo, ρ.OfferingAt u pub offer lo 0 → pub.length < lo + capacity.size →
      wp ρ.producerSide (fun x => wp ρ.producerSide Q (.ret (some x))) rest u) :
    wp ρ.producerSide Q (SpscQueue.whileFull capacity rest) t := by
  simp only [SpscQueue.whileFull, readIn_bind, readOut_bind, Prog.pure_eq]
  refine wp_readIn h ?_
  intro a hta ha
  refine wp_readOut ha ?_
  intro m ham _ hm hm'
  split
  · next hzero => exact wp_offering_ret hm' fun u _ hu => hagain u _ hu
  · next hzero =>
      exact wp_bind (hrest _ _ hm' (hm.room_of_not_full (mt hm.full_iff.mpr hzero)))

theorem waitPush_wp {Q : Option Unit → Nat → Prop} {v : T} (h : ρ.OfferingAt t pub [v] lo 0)
    (hagain : ∀ u lo, ρ.OfferingAt u pub [v] lo 0 → Q none u)
    (hpush : ∀ u lo, ρ.OfferingAt u (pub ++ [v]) [] lo 0 → Q (some ()) u) :
    wp ρ.producerSide Q (SpscQueue.waitPush capacity v) t := by
  refine whileFull_wp h hagain ?_
  intro u lo hu hroom
  simp only [readIn_bind, writeSlot_bind, addIn, writeIn, Prog.access]
  refine wp_put (k := .ret) hu hroom ?_
  intro w _ hw
  exact wp_offering_ret hw fun x _ hx => wp_offering_ret hx fun y _ hy => hpush y _ hy

theorem tryReserve1_wp {Q : Option Nat → Nat → Prop} (h : ρ.OfferingAt t pub [] lo 0)
    (hfull : ∀ m u lo, t ≤ m → m < u → (ρ.mem m).level = capacity.size →
      ρ.OfferingAt u pub [] lo 0 → Q none u)
    (hslot : ∀ u lo, ρ.OfferingAt u pub [] lo 0 → pub.length < lo + capacity.size →
      Q (some (capacity.slot pub.length)) u) :
    wp ρ.producerSide Q (SpscQueue.tryReserve1 capacity) t := by
  simp only [SpscQueue.tryReserve1, readIn_bind, readOut_bind, Prog.pure_eq]
  refine wp_readIn h ?_
  intro a hta ha
  refine wp_readOut ha ?_
  intro m ham _ hm hm'
  split
  · next hzero =>
      exact wp_offering_ret hm' fun u hmu hu =>
        hfull m u _ (by omega) (by omega) (hm.full_iff.mp hzero) hu
  · next hzero =>
      refine wp_readIn hm' ?_
      intro u _ hu
      refine wp_offering_ret hu ?_
      intro w _ hw
      rw [capacity.fifo_mask_slot]
      exact hslot w _ hw (hm.room_of_not_full (mt hm.full_iff.mpr hzero))

theorem reserve1_wp {Q : Option Nat → Nat → Prop} (h : ρ.OfferingAt t pub [] lo 0)
    (hagain : ∀ u lo, ρ.OfferingAt u pub [] lo 0 → Q none u)
    (hslot : ∀ u lo, ρ.OfferingAt u pub [] lo 0 → pub.length < lo + capacity.size →
      Q (some (capacity.slot pub.length)) u) :
    wp ρ.producerSide Q (SpscQueue.reserve1 capacity) t := by
  refine whileFull_wp h hagain ?_
  intro u lo hu hroom
  simp only [readIn_bind, Prog.pure_eq]
  refine wp_readIn hu ?_
  intro w _ hw
  refine wp_offering_ret hw ?_
  intro x _ hx
  rw [capacity.fifo_mask_slot]
  exact wp_offering_ret hx fun y _ hy => hslot y _ hy hroom

theorem finish1_wp {Q : Unit → Nat → Prop} {v : T} (h : ρ.OfferingAt t pub [v] lo 1)
    (hpush : ∀ u lo, ρ.OfferingAt u (pub ++ [v]) [] lo 0 → Q () u) :
    wp ρ.producerSide Q SpscQueue.finish1 t :=
  wp_addIn (x := 1#32) h (by simp) fun _ _ hu => wp_offering_ret hu fun w _ hw => hpush w _ hw

/-- A segment of a bulk push: `n` more offered values, stored in `n`
consecutive slots. -/
theorem storeSlots_wp {Q : Unit → Nat → Prop} {ret : Nat → T} {N i k dst : Nat}
    (h : ρ.OfferingAt t pub (firstN ret N) lo i) (hN : i + k ≤ N)
    (hroom : pub.length + (i + k) ≤ lo + capacity.size)
    (hdst : ∀ x, x < k → dst + x = capacity.slot (pub.length + i + x))
    (hk : ∀ u, t ≤ u → ρ.OfferingAt u pub (firstN ret N) lo (i + k) → Q () u) :
    wp ρ.producerSide Q (storeSlots ret dst i k) t := by
  induction k generalizing t i dst with
  | zero => exact wp_offering_ret h hk
  | succ k ih =>
      have hslot : dst = capacity.slot (pub.length + i) := hdst 0 (Nat.succ_pos k)
      simp only [storeSlots, writeSlot_bind]
      rw [hslot]
      refine wp_writeSlot h (firstN_getElem? ret (by omega)) (by omega) ?_
      intro u htu hu
      refine ih hu (by omega) (by omega) (fun x hx => ?_) (fun w huw hw => ?_)
      · rw [← hslot, show pub.length + (i + 1) + x = pub.length + i + (x + 1) by omega,
          ← hdst (x + 1) (by omega)]
        omega
      · exact hk w (by omega) (by rwa [show i + (k + 1) = i + 1 + k by omega])

theorem pushWith_wp {Q : CInt → Nat → Prop} {ret : Nat → T} {n : CInt}
    (h : ρ.OfferingAt t pub (firstN ret n.toNat) lo 0)
    (hcount : ∀ m u lo (r : CInt), t ≤ m → m < u → ρ.ProducerPerforms m .readOut →
      r.toNat = min n.toNat (capacity.size - (ρ.mem m).level) →
      ρ.OfferingAt u (pub ++ (firstN ret n.toNat).take r.toNat)
        ((firstN ret n.toNat).drop r.toNat) lo 0 → Q r u) :
    wp ρ.producerSide Q (pushWith capacity (storeSlots ret) n) t := by
  simp only [pushWith, readIn_bind, readOut_bind, addIn_bind, Prog.pure_eq]
  refine wp_readIn h ?_
  intro a hta ha
  refine wp_readOut ha ?_
  intro m ham hperf hm hm'
  have hlen : (min_ n (capacity.val - BitVec.ofNat 32 pub.length
      + BitVec.ofNat 32 (ρ.mem m).consumed.length)).toNat
      = min n.toNat (capacity.size - (ρ.mem m).level) := by
    rw [min_toNat, hm.free_toNat]
  have hroom : pub.length + (capacity.size - (ρ.mem m).level)
      ≤ (ρ.mem m).consumed.length + capacity.size := by
    have hle := hm.1.counters.le
    have hroom := hm.1.counters.room
    unfold Shared.level
    rw [hm.1.published] at hle hroom ⊢
    omega
  generalize min_ n (capacity.val - BitVec.ofNat 32 pub.length
      + BitVec.ofNat 32 (ρ.mem m).consumed.length) = len at hlen ⊢
  split
  · next hzero =>
      refine wp_offering_ret hm' ?_
      intro u hmu hu
      refine hcount m u _ 0#32 (by omega) (by omega) hperf ?_ (by simpa using hu)
      rw [← hlen, hzero]
  · next hzero =>
      refine wp_readIn hm' ?_
      intro b hb hb'
      obtain ⟨hsum, hfst, hsnd⟩ := capacity.segments pub.length len (by omega)
      rw [capacity.fifo_mask_slot]
      refine wp_bind (storeSlots_wp hb' (by omega) (by omega) hfst fun c hc hc' => ?_)
      refine wp_bind (storeSlots_wp (i := (min_ len _).toNat) (by rwa [Nat.zero_add] at hc')
        (by omega) (by omega) hsnd fun d hd hd' => ?_)
      rw [hsum] at hd'
      refine wp_addIn hd' (by rw [firstN_length]; omega) ?_
      intro e he he'
      exact wp_offering_ret he' fun u heu hu =>
        hcount m u _ len (by omega) (by omega) hperf hlen hu

end

/-! ## Consumer operations -/

section

variable {hi n : Nat} {con taken : List T} {Q : α → Nat → Prop}

theorem TakingAt.sub_toNat (h : ρ.TakingAt t con taken hi n) :
    (BitVec.ofNat 32 (ρ.mem t).published.length - BitVec.ofNat 32 con.length).toNat
      = (ρ.mem t).level := by
  rw [← h.1.consumed, ← h.1.counters.in_eq, ← h.1.counters.out_eq]
  exact h.1.counters.sub_toNat

/-- The emptiness test of the code, with the counters it has read. -/
theorem TakingAt.empty_iff (h : ρ.TakingAt t con taken hi n) :
    BitVec.ofNat 32 (ρ.mem t).published.length - BitVec.ofNat 32 con.length = 0#32
      ↔ (ρ.mem t).level = 0 := by
  rw [← BitVec.toNat_inj, h.sub_toNat, BitVec.toNat_ofNat, Nat.zero_mod]

theorem TakingAt.published_eq (h : ρ.TakingAt t con taken hi n) :
    (ρ.mem t).published.length = con.length + (ρ.mem t).level := by
  have hle := h.1.counters.le
  unfold Shared.level
  rw [h.1.consumed] at hle ⊢
  omega

/-- `out += x` after taking at least as many values. -/
theorem wp_addOut {k : Unit → QueueProg T α} {x : Unsigned}
    (h : ρ.TakingAt t con taken hi n) (hx : x.toNat ≤ taken.length) (hn : n ≤ x.toNat)
    (hk : ∀ u, t ≤ u → ρ.TakingAt u (con ++ taken.take x.toNat) (taken.drop x.toNat) hi 0 →
      wp ρ.consumerSide Q (k ()) u) :
    wp ρ.consumerSide Q (.act .readOut fun out => .act (.writeOut (out + x)) k) t := by
  refine wp_readOut' h ?_
  intro a hta ha
  rw [Counter.ofNat_add_bits]
  exact wp_writeOut ha hx hn fun b hab hb => hk (b + 1) (by omega) hb

theorem pop_wp {Q : Bool × T → Nat → Prop} {v : T} (h : ρ.TakingAt t con [] hi 0)
    (hempty : ∀ m u hi, t ≤ m → m < u → (ρ.mem m).level = 0 →
      ρ.TakingAt u con [] hi 0 → Q (false, v) u)
    (hpop : ∀ u hi x, ρ.TakingAt u (con ++ [x]) [] hi 0 → Q (true, x) u) :
    wp ρ.consumerSide Q (SpscQueue.pop capacity v) t := by
  simp only [SpscQueue.pop, readIn_bind, readOut_bind, moveSlot_bind, addOut_bind, Prog.pure_eq]
  refine wp_readIn' h fun m htm _ hm hm' => wp_readOut' hm' ?_
  intro a hma ha
  split
  · next hzero =>
      exact wp_taking_ret ha fun u hau hu =>
        hempty m u _ htm (by omega) (hm.empty_iff.mp hzero) hu
  · next hzero =>
      have hlt : con.length + ([] : List T).length < (ρ.mem m).published.length := by
        have hlevel := mt hm.empty_iff.mpr hzero
        have hpub := hm.published_eq
        simp only [List.length_nil]
        omega
      refine wp_readOut' ha ?_
      intro b hab hb
      rw [capacity.mask_slot]
      refine wp_moveSlot hb hlt ?_
      intro c x hbc hc
      refine wp_addOut (x := 1#32) hc (by simp) (by simp) ?_
      intro d _ hd
      exact wp_taking_ret hd fun u _ hu => hpop u _ x hu

theorem peek_wp {Q : CInt × Nat → Nat → Prop} {max : Unsigned} (h : ρ.TakingAt t con [] hi 0)
    (hpeek : ∀ m u hi (r : CInt), t ≤ m → m < u → ρ.ConsumerPerforms m .readIn →
      r.toNat = min max.toNat (ρ.mem m).level → con.length + r.toNat ≤ hi →
      ρ.TakingAt u con [] hi 0 → Q (r, capacity.slot con.length) u) :
    wp ρ.consumerSide Q (SpscQueue.peek capacity max) t := by
  simp only [SpscQueue.peek, readIn_bind, readOut_bind, Prog.pure_eq]
  refine wp_readIn' h fun m htm hperf hm hm' => wp_readOut' hm' ?_
  intro a hma ha
  refine wp_readOut' ha fun b hab hb => wp_taking_ret hb ?_
  intro u hbu hu
  have hr := min_toNat max
    (BitVec.ofNat 32 (ρ.mem m).published.length - BitVec.ofNat 32 con.length)
  rw [hm.sub_toNat] at hr
  have hpub := hm.published_eq
  rw [capacity.fifo_mask_slot]
  exact hpeek m u _ _ htm (by omega) hperf hr (by omega) hu

theorem consume_wp {Q : Unit → Nat → Prop} {x : Unsigned} (h : ρ.TakingAt t con taken hi 0)
    (hx : x.toNat ≤ taken.length)
    (hdone : ∀ u, ρ.TakingAt u (con ++ taken.take x.toNat) (taken.drop x.toNat) hi 0 → Q () u) :
    wp ρ.consumerSide Q (SpscQueue.consume x) t :=
  wp_addOut h hx (Nat.zero_le _) fun _ _ hu => wp_taking_ret hu fun w _ hw => hdone w hw

/-- How `loadSlots` reads one slot: the value joins those taken. -/
def Fetches (ρ : RingRun elem capacity) (fetch : Nat → QueueProg T T) : Prop :=
  ∀ {α : Type} {Q : α → Nat → Prop} {t hi n : Nat} {con taken : List T} {k : T → QueueProg T α},
    ρ.TakingAt t con taken hi n → con.length + taken.length < hi →
    (∀ u v n, t ≤ u → ρ.TakingAt (u + 1) con (taken ++ [v]) hi n →
      wp ρ.consumerSide Q (k v) (u + 1)) →
    wp ρ.consumerSide Q (fetch (capacity.slot (con.length + taken.length)) >>= k) t

theorem fetches_readSlot : Fetches ρ readSlot := fun h hlt hk =>
  wp_readSlot h hlt fun u v htu hu => hk u v _ htu hu

theorem fetches_moveSlot : Fetches ρ moveSlot := fun h hlt hk =>
  wp_moveSlot h hlt fun u v htu hu => hk u v _ htu hu

/-- A segment of a bulk pop: `k` more values, from `k` consecutive slots
into `k` consecutive places of the caller's array. -/
theorem loadSlots_wp {Q : (Nat → T) → Nat → Prop} {fetch : Nat → QueueProg T T}
    (hfetch : Fetches ρ fetch) {ret : Nat → T} {k dst src : Nat}
    (h : ρ.TakingAt t con taken hi n) (hhi : con.length + taken.length + k ≤ hi)
    (hsrc : ∀ x, x < k → src + x = capacity.slot (con.length + taken.length + x))
    (hk : ∀ u vs n ret', t ≤ u → ρ.TakingAt u con (taken ++ vs) hi n → vs.length = k →
      (∀ x, x < k → vs[x]? = some (ret' (dst + x))) →
      (∀ x, x < dst ∨ dst + k ≤ x → ret' x = ret x) → Q ret' u) :
    wp ρ.consumerSide Q (loadSlots fetch ret dst src k) t := by
  induction k generalizing t n taken ret dst src with
  | zero =>
      refine wp_taking_ret h ?_
      intro u htu hu
      exact hk u [] n ret htu (by rwa [List.append_nil]) rfl
        (fun x hx => absurd hx (Nat.not_lt_zero x)) (fun _ _ => rfl)
  | succ k ih =>
      have hslot : src = capacity.slot (con.length + taken.length) := hsrc 0 (Nat.succ_pos k)
      simp only [loadSlots]
      rw [hslot]
      refine hfetch h (by omega) ?_
      intro u v n htu hu
      refine ih hu (by simp only [List.length_append, List.length_singleton]; omega)
        (fun x hx => ?_) (fun w vs n ret' huw hw hvs hin hout => ?_)
      · rw [← hslot, List.length_append, List.length_singleton,
          show con.length + (taken.length + 1) + x = con.length + taken.length + (x + 1) by omega,
          ← hsrc (x + 1) (by omega)]
        omega
      · refine hk w (v :: vs) n ret' (by omega) (by simpa using hw) (by simp [hvs])
          (fun x hx => ?_) (fun x hx => ?_)
        · cases x with
          | zero => simp [hout dst (Or.inl (Nat.lt_succ_self dst))]
          | succ x =>
              rw [List.getElem?_cons_succ, hin x (by omega)]
              congr 2; omega
        · rw [hout x (by omega), setSlot_of_ne _ (by omega)]

theorem popWith_wp {Q : CInt × (Nat → T) → Nat → Prop} {fetch : Nat → QueueProg T T}
    (hfetch : Fetches ρ fetch) {ret : Nat → T} {x : CInt} (h : ρ.TakingAt t con [] hi 0)
    (hbatch : ∀ m u hi vs (r : CInt) ret', t ≤ m → m < u → ρ.ConsumerPerforms m .readIn →
      r.toNat = min x.toNat (ρ.mem m).level → vs.length = r.toNat →
      (∀ i, i < r.toNat → vs[i]? = some (ret' i)) → (∀ i, r.toNat ≤ i → ret' i = ret i) →
      ρ.TakingAt u (con ++ vs) [] hi 0 → Q (r, ret') u) :
    wp ρ.consumerSide Q (popWith capacity (loadSlots fetch) ret x) t := by
  simp only [popWith, readIn_bind, readOut_bind, addOut_bind, Prog.pure_eq]
  refine wp_readIn' h fun m htm hperf hm hm' => wp_readOut' hm' ?_
  intro a hma ha
  have hlen := min_toNat x
    (BitVec.ofNat 32 (ρ.mem m).published.length - BitVec.ofNat 32 con.length)
  rw [hm.sub_toNat] at hlen
  have hpub := hm.published_eq
  have hlevel := hm.1.counters.level_le
  generalize min_ x (BitVec.ofNat 32 (ρ.mem m).published.length
    - BitVec.ofNat 32 con.length) = len at hlen ⊢
  split
  · next hzero =>
      refine wp_taking_ret ha ?_
      intro u hau hu
      refine hbatch m u _ [] 0#32 ret htm (by omega) hperf (by rw [← hlen, hzero]) rfl
        (fun i hi' => absurd hi' (by simp)) (fun _ _ => rfl) (by rwa [List.append_nil])
  · next hzero =>
      refine wp_readOut' ha ?_
      intro b hab hb
      obtain ⟨hsum, hfst, hsnd⟩ := capacity.segments con.length len (by omega)
      rw [capacity.fifo_mask_slot]
      refine wp_bind (loadSlots_wp hfetch hb (by simp only [List.length_nil]; omega)
        (by simpa using hfst) fun c vs n ret₁ hbc hc hvs hin₁ hout₁ => ?_)
      rw [List.nil_append] at hc
      refine wp_bind (loadSlots_wp hfetch hc (by omega) (by rwa [hvs])
        fun d ws n ret₂ hcd hd hws hin₂ hout₂ => ?_)
      have hall : (vs ++ ws).length = len.toNat := by rw [List.length_append]; omega
      refine wp_addOut hd (by omega) (by rw [← hall]; exact hd.1.emptied) ?_
      intro e hde he
      rw [List.take_of_length_le (by omega), List.drop_of_length_le (by omega)] at he
      refine wp_taking_ret he ?_
      intro u heu hu
      refine hbatch m u _ (vs ++ ws) len ret₂ htm (by omega) hperf hlen hall
        (fun i hi' => ?_) (fun i hi' => ?_) hu
      · rcases Nat.lt_or_ge i vs.length with hfst' | hsnd'
        · rw [List.getElem?_append_left hfst', hout₂ i (Or.inl (by omega))]
          simpa using hin₁ i (by omega)
        · rw [List.getElem?_append_right hsnd', hin₂ (i - vs.length) (by omega)]
          congr 2; omega
      · rw [hout₂ i (by omega), hout₁ i (by omega)]

end

end RingRun

end LockFreeRingBuf
