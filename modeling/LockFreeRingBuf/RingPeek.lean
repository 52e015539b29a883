import LockFreeRingBuf.RingBulk

/-!
# Peek, walk and consume

`peek` may count elements on both sides of the array end, and hands out one
pointer. The caller's loop reads through that pointer, increments it and
puts `begin_buf()` in its place whenever it equals `end_buf()`. Followed by
`consume`, this is a second way to take a batch out of the ring; it is
compared with the bulk `pop`, and the slots it dereferences are read off
its trace.
-/

namespace LockFreeRingBuf

open Resumption

variable {T : Type}

/-- The accesses `exec` performs, in order. -/
def accesses {α : Type} (elem : Element T) (p : QueueProg T α) (q : Fifo T) : List (Access T) :=
  p.trace (Fifo.perform elem) q

/-- The slot that an access dereferences. -/
def Access.slot : Access T → Option Nat
  | .readIn => none
  | .readOut => none
  | .readSlot i => some i
  | .moveSlot i => some i
  | .writeSlot i _ => some i
  | .writeIn _ => none
  | .writeOut _ => none

/-- The slots that an uninterrupted run dereferences, in order. -/
def visited {α : Type} (elem : Element T) (p : QueueProg T α) (q : Fifo T) : List Nat :=
  (accesses elem p q).filterMap Access.slot

section

variable (capacity : Capacity)

/-- `while (count > 0)` over the element at the pointer `p`. -/
def readWalk : (p count : Nat) → QueueProg T (List T)
  | _, 0 => return []
  | p, count + 1 => do
    let t ← readSlot p
    let ts ← readWalk (SpscQueue.walk capacity p) count
    return t :: ts

/-- `peek(&n, max)`, the loop with `int count = n`, and `consume(n)`. -/
def drainPeeked (max : Unsigned) : QueueProg T (CInt × List T) := do
  let (n, p) ← SpscQueue.peek capacity max
  let ts ← readWalk capacity p n.toInt.toNat
  SpscQueue.consume n
  return (n, ts)

end

variable {capacity : Capacity} {q : Fifo T} {lo : Nat} {l : List T} (elem : Element T)

@[simp] theorem visited_ret {α : Type} (x : α) (q : Fifo T) : visited elem (.ret x) q = [] := rfl

@[simp] theorem visited_readSlot_bind {α : Type} (i : Nat) (k : T → QueueProg T α) (q : Fifo T) :
    visited elem (readSlot i >>= k) q = i :: visited elem (k (q.arr i)) q := rfl

theorem visited_bind {α β : Type} (p : QueueProg T α) (f : α → QueueProg T β) (q : Fifo T) :
    visited elem (p >>= f) q
      = visited elem p q ++ visited elem (f (exec elem p q).1) (exec elem p q).2 := by
  simp only [visited, accesses, Prog.trace_bind, List.filterMap_append]
  rfl

@[simp] theorem visited_peek (max : Unsigned) (q : Fifo T) :
    visited elem (SpscQueue.peek capacity max) q = [] := rfl

@[simp] theorem visited_consume (n : Unsigned) (q : Fifo T) :
    visited elem (SpscQueue.consume n) q = [] := rfl

theorem readWalk_exec (p count : Nat) (q : Fifo T) :
    exec elem (readWalk capacity p count) q = (Client.walked capacity q.arr p count, q) := by
  induction count generalizing p with
  | zero => rfl
  | succ count ih =>
      simp only [readWalk, readSlot_bind, exec_act, Fifo.perform, exec_bind, ih, Prog.pure_eq,
        exec_ret, Client.walked, List.range_succ_eq_map, List.map_cons, List.map_map]
      rfl

/-- The loop dereferences the pointers of the walk, and nothing else. -/
theorem readWalk_visited (p count : Nat) (q : Fifo T) :
    visited elem (readWalk capacity p count) q
      = (List.range count).map fun i => (SpscQueue.walk capacity)^[i] p := by
  induction count generalizing p with
  | zero => rfl
  | succ count ih =>
      rw [readWalk, visited_readSlot_bind, visited_bind, Prog.pure_eq, visited_ret,
        List.append_nil, ih, List.range_succ_eq_map, List.map_cons, List.map_map]
      rfl

/-- A batch whose length fits an `int`: its values, its slots, and the bump of
`out` by its length. -/
theorem drainPeeked_exec (h : Holds capacity q lo l) (max : Unsigned)
    (hfits : min max.toNat l.length < 2 ^ 31) :
    ∃ n, exec elem (drainPeeked capacity max) q
        = ((n, l.take n.toNat), { q with out := q.out + n })
      ∧ n.toNat = min max.toNat l.length
      ∧ visited elem (drainPeeked capacity max) q
        = (List.range n.toNat).map fun i => capacity.slot (lo + i) := by
  obtain ⟨n, hpeek, hn⟩ := peek_exec elem h max
  have hcount : n.toInt.toNat = n.toNat :=
    toInt_toNat_of_nonneg (by rw [BitVec.toInt_eq_toNat_of_lt (by omega)]; omega)
  have hvalues := walked_eq h (n := n.toNat) (by omega)
  refine ⟨n, ?_, hn, ?_⟩
  · simp only [drainPeeked, exec_bind, hpeek, readWalk_exec, hcount, hvalues]
    rfl
  · simp only [drainPeeked, visited_bind, visited_peek, hpeek, readWalk_visited, hcount,
      visited_consume, Prog.pure_eq, visited_ret, List.nil_append, List.append_nil, walk_iterate]

/-- Slots of fewer positions than there are slots differ. -/
theorem slots_nodup (lo : Nat) {n : Nat} (hn : n ≤ capacity.size) :
    ((List.range n).map fun i => capacity.slot (lo + i)).Nodup := by
  refine List.Nodup.map_on ?_ List.nodup_range
  intro i hi j hj heq
  rw [List.mem_range] at hi hj
  have := capacity.slot_inj lo (by omega) (by omega) (by omega) (by omega) heq
  omega

theorem popBulk_loads (h : Holds capacity q lo l) (ret : Nat → T) (n : CInt) :
    ∃ len ret' arr', exec elem (SpscQueue.popBulk elem capacity ret n) q
        = ((len, ret'), { q with out := q.out + len, arr := arr' })
      ∧ len.toNat = min n.toNat l.length
      ∧ ∀ x, x < len.toNat → ret' x = q.arr (capacity.slot (lo + x)) := by
  simp only [SpscQueue.popBulk, SpscWorker.popTrivial, SpscWorker.popNontrivial]
  split
  · obtain ⟨len, ret', arr', hexec, hlen, -, hin, -⟩ := popWith_loads leaves_readSlot h ret n
    exact ⟨len, ret', arr', hexec, hlen, hin⟩
  · obtain ⟨len, ret', arr', hexec, hlen, -, hin, -⟩ := popWith_loads leaves_moveSlot h ret n
    exact ⟨len, ret', arr', hexec, hlen, hin⟩

/-- From any bounded state and for any `max` that an `int` can carry, the walk
over a peeked batch reads what the bulk `pop` delivers and leaves the same
counters. It dereferences one slot for each element, each inside the array and
no two the same. -/
theorem peek_walk_is_pop (elem : Element T) (capacity : Capacity) (q : Fifo T)
    (h : q.Bounded capacity) (ret : Nat → T) (max : Unsigned) (hmax : max.toNat < 2 ^ 31) :
    let walked := exec elem (drainPeeked capacity max) q
    let popped := exec elem (SpscQueue.popBulk elem capacity ret max) q
    let slots := visited elem (drainPeeked capacity max) q
    walked.1.1 = popped.1.1 ∧ walked.1.2 = firstN popped.1.2 popped.1.1.toNat
      ∧ walked.2.in_ = popped.2.in_ ∧ walked.2.out = popped.2.out
      ∧ slots.length = walked.1.1.toNat ∧ (∀ i ∈ slots, i < capacity.size) ∧ slots.Nodup := by
  have hbound := h.holds.bound
  obtain ⟨n, hwalk, hn, hslots⟩ := drainPeeked_exec elem h.holds max (by omega)
  obtain ⟨len, ret', arr', hpop, hlen, hin⟩ := popBulk_loads elem h.holds ret max
  obtain rfl : len = n := BitVec.toNat_inj.mp (hlen.trans hn.symm)
  simp only [hwalk, hpop, hslots]
  refine ⟨trivial, ?_, trivial, trivial, by simp, ?_, slots_nodup _ (by omega)⟩
  · refine List.ext_getElem? ?_
    intro i
    rcases Nat.lt_or_ge i len.toNat with hi | hi
    · rw [List.getElem?_take_of_lt hi, h.holds.slots i (by omega), firstN_getElem? _ hi, hin i hi]
    · rw [List.getElem?_eq_none (by rw [List.length_take]; omega),
        List.getElem?_eq_none (by rwa [firstN_length])]
  · intro j hj
    obtain ⟨i, -, rfl⟩ := List.mem_map.mp hj
    exact capacity.slot_lt _

/-- Two slots, both taken, the older one the last of the array and its counter
the last before the wrap. -/
theorem peek_walk_is_pop_straddling :
    let q : Fifo Nat := ⟨1#32, 0xFFFFFFFF#32, id⟩
    let walked := exec ⟨false, fun _ => 0⟩ (drainPeeked .two 5#32) q
    let popped := exec ⟨false, fun _ => 0⟩
      (SpscQueue.popBulk ⟨false, fun _ => 0⟩ .two (fun _ => 9) 5#32) q
    walked.1 = (2#32, [1, 0]) ∧ walked.1.1 = popped.1.1 :=
  ⟨by decide, (peek_walk_is_pop _ _ _ (by decide) _ 5#32 (by decide)).1⟩

end LockFreeRingBuf
