import LockFreeRingBuf.RingPeek

/-!
# Counts as `int`

`read_available` and `peek` compute their counts as differences of
`unsigned int` counters and hand them out as `int`. The difference is
always the number of elements in the ring; the `int` is that number as
long as it is less than `2 ^ 31`. `__CHECK_POWER_OF_2` admits one capacity
that is not: a ring of `2 ^ 31` slots that is full reports `- 2 ^ 31`
elements, and a loop over a batch of all of them visits none.
-/

namespace LockFreeRingBuf

open Resumption Transition

variable {T : Type}

/-- The largest capacity that `__CHECK_POWER_OF_2` admits. -/
def Capacity.largest : Capacity := ⟨0x80000000#32, by decide⟩

/-! ## What the counts say -/

section

variable (elem : Element T) (capacity : Capacity) (s : Shared T)

/-- `read_available()` is the number of elements published and not consumed. -/
def AvailableTrue : Prop :=
  (exec elem SpscQueue.readAvailable s.toFifo).1.toInt = s.level

/-- `peek(&n, max)` stores the number of elements, at most `max`; the loop over
the batch visits the slots of all of them, and `consume(n)` advances `out` by
as many. -/
structure BatchTrue (max : Unsigned) : Prop where
  peeked : (exec elem (SpscQueue.peek capacity max) s.toFifo).1.1.toInt
    = (min max.toNat s.level : Nat)
  visits : visited elem (drainPeeked capacity max) s.toFifo
    = (List.range (min max.toNat s.level)).map fun i => capacity.slot (s.consumed.length + i)
  consumed : (exec elem (drainPeeked capacity max) s.toFifo).2.out
    = s.out + BitVec.ofNat 32 (min max.toNat s.level)

/-- Both counts are true, and within the capacity. -/
structure CountsTrue (max : Unsigned) : Prop where
  available : AvailableTrue elem s
  batch : BatchTrue elem capacity s max
  bounded : s.level ≤ capacity.size

end

variable {elem : Element T} {capacity : Capacity} {s : Shared T}

theorem toInt_eq_toNat_iff (n : CInt) : n.toInt = n.toNat ↔ n.toNat < 2 ^ 31 := by
  have hlt := n.isLt
  rw [BitVec.toInt_eq_toNat_cond]
  split <;> omega

/-- The memory of a run holds the elements between the two histories. -/
theorem Counters.holds (h : Counters capacity s) :
    Holds capacity s.toFifo s.consumed.length
      (firstN (fun i => s.arr (capacity.slot (s.consumed.length + i))) s.level) where
  in_eq := by
    have hle := h.le
    rw [firstN_length, h.in_eq, Shared.level]
    congr 1; omega
  out_eq := h.out_eq
  bound := by rw [firstN_length]; exact h.level_le
  slots i hi := firstN_getElem? _ (by rwa [firstN_length] at hi)

theorem available_true_iff (h : Counters capacity s) :
    AvailableTrue elem s ↔ s.level < 2 ^ 31 := by
  have hcount := (readAvailable_exec elem h.holds).1
  rw [firstN_length] at hcount
  rw [AvailableTrue, ← hcount]
  exact toInt_eq_toNat_iff _

theorem batch_true_iff (h : Counters capacity s) (max : Unsigned) :
    BatchTrue elem capacity s max ↔ min max.toNat s.level < 2 ^ 31 := by
  obtain ⟨n, hpeek, hn⟩ := peek_exec elem h.holds max
  rw [firstN_length] at hn
  constructor
  · intro hbatch
    have hpeeked := hbatch.peeked
    rw [hpeek, ← hn] at hpeeked
    rw [← hn]
    exact (toInt_eq_toNat_iff n).mp hpeeked
  · intro hfits
    obtain ⟨m, hdrain, hm, hvisits⟩ := drainPeeked_exec elem h.holds max
      (by rwa [firstN_length])
    rw [firstN_length] at hm
    refine ⟨?_, by rw [hvisits, hm], ?_⟩
    · rw [hpeek, ← hn]
      exact (toInt_eq_toNat_iff n).mpr (by rwa [hn])
    · rw [hdrain, ← hm, BitVec.ofNat_toNat, BitVec.setWidth_eq]

/-! ## Rings that have been filled -/

section

variable (elem capacity)

/-- An uninterrupted `try_push` on a ring with room, from one idle state to
the next. -/
theorem push_reachable {s : Config T} {l : List T} (h : (ringSystem elem capacity).Reachable s)
    (hp : s.producer = .idle) (hholds : Holds capacity s.shared.toFifo 0 l)
    (hroom : l.length < capacity.size) (v : T) :
    ∃ s', (ringSystem elem capacity).Reachable s' ∧ s'.producer = .idle
      ∧ s'.consumer = s.consumer
      ∧ s'.shared.toFifo = { s.shared.toFifo with
          in_ := s.shared.in_ + 1#32
          arr := setSlot s.shared.arr (capacity.slot l.length) v } := by
  let s₁ : Config T := { s with
    producer := .running (.tryPush v) [v] ((ProducerCall.tryPush v).body elem capacity) }
  have hcall : (ringSystem elem capacity).step (.producer (.call (.tryPush v))) s = some s₁ := by
    simp only [ringSystem, Config.step, Config.producerStep, hp, Producer.offers, Option.map_some]
    rfl
  have hp₁ : s₁.producer = .running (.tryPush v) [v]
      ((ProducerCall.tryPush v).body elem capacity) := rfl
  obtain ⟨s₂, offer, hsteps, hp₂, hq₂, hc₂⟩ := producer_alone elem capacity hp₁
  have hexec : exec elem ((ProducerCall.tryPush v).body elem capacity) s.shared.toFifo
      = (some (.verdict true), { s.shared.toFifo with
          in_ := s.shared.in_ + 1#32
          arr := setSlot s.shared.arr (capacity.slot (0 + l.length)) v }) := by
    rw [ProducerCall.body, exec_map, tryPush_exec_room elem hholds v hroom]
  rw [hexec] at hp₂ hq₂
  rw [Nat.zero_add] at hq₂
  have hleave : (ringSystem elem capacity).step (.producer .step) s₂
      = some { s₂ with producer := .idle } := by
    simp only [ringSystem, Config.step, Config.producerStep, hp₂]
  exact ⟨_, ((h.step hcall).steps hsteps).step hleave, rfl, hc₂, hq₂⟩

/-- Every number of elements up to the capacity is reached between calls. -/
theorem filled_reachable (v : T) {k : Nat} (hk : k ≤ capacity.size) :
    ∃ s : Config T, (ringSystem elem capacity).Reachable s ∧ s.producer = .idle
      ∧ s.consumer = .idle ∧ s.shared.toFifo = ⟨BitVec.ofNat 32 k, 0#32, fun _ => v⟩ := by
  induction k with
  | zero => exact ⟨.fresh fun _ => v, .of_init ⟨_, rfl⟩, rfl, rfl, rfl⟩
  | succ k ih =>
      obtain ⟨s, hs, hp, hc, hq⟩ := ih (by omega)
      have hholds : Holds capacity s.shared.toFifo 0 (firstN (fun _ => v) k) := by
        rw [hq]
        exact ⟨by rw [firstN_length, Nat.zero_add], rfl, by rw [firstN_length]; omega,
          fun i hi => firstN_getElem? _ (by rwa [firstN_length] at hi)⟩
      obtain ⟨s', hs', hp', hc', hq'⟩ := push_reachable elem capacity hs hp hholds
        (by rw [firstN_length]; omega) v
      refine ⟨s', hs', hp', hc'.trans hc, ?_⟩
      rw [hq', hq, setSlot_eq_self (fun _ => v), Counter.ofNat_add_bits]
      rfl

/-- After `k` pushes the ring holds `k` elements. -/
theorem filled_level {s : Config T} (h : (ringSystem elem capacity).Reachable s) {v : T} {k : Nat}
    (hk : k ≤ capacity.size) (hq : s.shared.toFifo = ⟨BitVec.ofNat 32 k, 0#32, fun _ => v⟩) :
    s.shared.level = k := by
  have hsize := capacity.size_le
  rw [← (counters_reachable h).sub_toNat]
  show (s.shared.toFifo.in_ - s.shared.toFifo.out).toNat = k
  rw [hq]
  show (BitVec.ofNat 32 k - 0#32).toNat = k
  rw [BitVec.sub_zero, BitVec.toNat_ofNat]
  exact Nat.mod_eq_of_lt (by omega)

end

/-! ## When the counts are true -/

/-- In every reachable state and for every `max`, the counts are true exactly
when the ring does not hold `2 ^ 31` elements, as only a full ring of the
largest capacity does. -/
theorem counts_true_iff {s : Config T} (h : (ringSystem elem capacity).Reachable s)
    (max : Unsigned) :
    CountsTrue elem capacity s.shared max
      ↔ ¬ (capacity.size = 2 ^ 31 ∧ s.shared.level = capacity.size) := by
  have hcounters := counters_reachable h
  have hlevel := hcounters.level_le
  have hsize := capacity.size_le
  constructor
  · rintro hcounts ⟨hlargest, hfull⟩
    have havailable := (available_true_iff hcounters).mp hcounts.available
    omega
  · intro hnot
    have hfits : s.shared.level < 2 ^ 31 := by omega
    exact ⟨(available_true_iff hcounters).mpr hfits,
      (batch_true_iff hcounters max).mpr (by omega), hlevel⟩

/-- Two elements in the ring of two slots: both are available, and a batch of at
most three visits both of them. -/
theorem counts_true_iff_filled :
    ∃ s : Config Nat, (ringSystem ⟨true, id⟩ .two).Reachable s
      ∧ s.shared.toFifo = ⟨2#32, 0#32, fun _ => 0⟩ ∧ s.shared.level = 2
      ∧ visited ⟨true, id⟩ (drainPeeked .two 3#32) s.shared.toFifo = [0, 1]
      ∧ CountsTrue ⟨true, id⟩ .two s.shared 3#32 := by
  obtain ⟨s, hs, -, -, hq⟩ := filled_reachable ⟨true, id⟩ .two 0 (k := 2) (Nat.le_refl _)
  have hlevel := filled_level ⟨true, id⟩ .two hs (Nat.le_refl _) hq
  refine ⟨s, hs, hq, hlevel, ?_, (counts_true_iff hs 3#32).mpr ?_⟩
  · rw [hq]; decide
  · rintro ⟨hlargest, -⟩
    exact absurd hlargest (by decide)

/-- The largest ring, filled by `2 ^ 31` pushes: `read_available` is `- 2 ^ 31`,
and so is the count of a batch without limit, whose loop visits nothing. -/
theorem counts_negative_when_full :
    ∃ s : Config Nat, (ringSystem ⟨true, id⟩ .largest).Reachable s
      ∧ s.shared.toFifo = ⟨0x80000000#32, 0#32, fun _ => 0⟩ ∧ s.shared.level = 2147483648
      ∧ (exec ⟨true, id⟩ SpscQueue.readAvailable s.shared.toFifo).1.toInt = -2147483648
      ∧ (exec ⟨true, id⟩ (SpscQueue.peek .largest 0xFFFFFFFF#32) s.shared.toFifo).1.1.toInt
        = -2147483648
      ∧ visited ⟨true, id⟩ (drainPeeked .largest 0xFFFFFFFF#32) s.shared.toFifo = []
      ∧ ¬ CountsTrue ⟨true, id⟩ .largest s.shared 0xFFFFFFFF#32 := by
  obtain ⟨s, hs, -, -, hq⟩ := filled_reachable ⟨true, id⟩ .largest 0 (Nat.le_refl _)
  have hcounters := counters_reachable hs
  have hlevel : s.shared.level = 2147483648 := filled_level _ _ hs (Nat.le_refl _) hq
  refine ⟨s, hs, hq, hlevel, ?_, ?_, ?_, ?_⟩
  · rw [hq]; decide
  · rw [hq]; decide
  · rw [hq]; decide
  · intro hcounts
    have hfits := (available_true_iff hcounters).mp hcounts.available
    omega

end LockFreeRingBuf
