import LockFreeRingBuf.RingSequential
import LockFreeRingBuf.Lib.BoundedFifo

/-!
# The queue as a bounded list

`RingSpec` is what the queue is for: a list of at most `capacity` values,
and the value written through a reservation that is not finished. A call
whose caller breaks the protocol (`finish_1` with nothing written, a
negative length, consuming more than there is) or would have to wait is
outside the specification. `Client` is the queue as the code keeps it,
with the pointer the caller holds.
-/

namespace LockFreeRingBuf

variable {T : Type}

inductive RingCall (T : Type) where
  | readAvailable
  | tryPush (t : T)
  | waitPush (t : T)
  | push (ret : Nat → T) (n : CInt)
  | tryReserve1
  | reserve1
  /-- The caller's assignment to the reserved slot. -/
  | assign (t : T)
  | finish1
  | pop (t : T)
  | popBulk (ret : Nat → T) (n : CInt)
  /-- `peek`, and the caller's walk over the `*n` slots. -/
  | peek (max : Unsigned)
  | consume (n : Unsigned)

inductive RingReply (T : Type) where
  | available (n : Nat)
  | verdict (b : Bool)
  | done
  | waits
  | count (n : Nat)
  | reserved (b : Bool)
  | popped (b : Bool) (t : T)
  | batch (n : Nat) (ret : Nat → T)
  | peeked (ts : List T)

/-! ## The specification -/

inductive Reservation (T : Type) where
  | absent
  | blank
  | written (t : T)

structure RingSpec (T : Type) (c : Nat) where
  queue : BoundedFifo T c
  reservation : Reservation T

/-- `xs` at the front of the caller's array. -/
def overlay (xs : List T) (ret : Nat → T) : Nat → T := fun i => xs[i]?.getD (ret i)

namespace RingSpec

variable {c : Nat}

def fresh : RingSpec T c := ⟨.empty, .absent⟩

def append (s : RingSpec T c) (xs : List T) : RingSpec T c := ⟨s.queue.append xs, .absent⟩

def drop (s : RingSpec T c) (n : Nat) : RingSpec T c := ⟨s.queue.drop n, s.reservation⟩

def step : RingCall T → RingSpec T c → Option (RingReply T × RingSpec T c)
  | .readAvailable, s => some (.available s.queue.items.length, s)
  | .tryPush t, s =>
    if s.queue.items.length < c then some (.verdict true, s.append [t])
    else some (.verdict false, s)
  | .waitPush t, s =>
    if s.queue.items.length < c then some (.done, s.append [t]) else none
  | .push ret n, s =>
    if 0 ≤ n.toInt then
      some (.count (min n.toInt.toNat s.queue.free), s.append (firstN ret n.toInt.toNat))
    else none
  | .tryReserve1, s =>
    if s.queue.items.length < c then some (.reserved true, { s with reservation := .blank })
    else some (.reserved false, s)
  | .reserve1, s =>
    if s.queue.items.length < c then some (.reserved true, { s with reservation := .blank })
    else none
  | .assign t, s =>
    match s.reservation with
    | .absent => none
    | _ => some (.done, { s with reservation := .written t })
  | .finish1, s =>
    match s.reservation with
    | .written t => some (.done, s.append [t])
    | _ => none
  | .pop t, s =>
    match s.queue.items with
    | [] => some (.popped false t, s)
    | x :: _ => some (.popped true x, s.drop 1)
  | .popBulk ret n, s =>
    if 0 ≤ n.toInt then
      let k := min n.toInt.toNat s.queue.items.length
      some (.batch k (overlay (s.queue.items.take k) ret), s.drop k)
    else none
  | .peek max, s => some (.peeked (s.queue.items.take max.toNat), s)
  | .consume n, s =>
    if n.toNat ≤ s.queue.items.length then some (.done, s.drop n.toNat) else none

end RingSpec

/-! ## The code -/

structure Client (T : Type) where
  fifo : Fifo T
  /-- The pointer that the last reservation returned. -/
  pointer : Option Nat

namespace Client

def fresh (arr : Nat → T) : Client T := ⟨⟨0#32, 0#32, arr⟩, none⟩

variable (elem : Element T) (capacity : Capacity)

/-- The slots read through a peeked pointer. -/
def walked (arr : Nat → T) (p n : Nat) : List T :=
  (List.range n).map fun i => arr ((SpscQueue.walk capacity)^[i] p)

/-- Complete one call before the next begins. Counts are read off their bits,
before any conversion to `int`. -/
def step : RingCall T → Client T → RingReply T × Client T
  | .readAvailable, s =>
    let (n, q) := exec elem SpscQueue.readAvailable s.fifo
    (.available n.toNat, { s with fifo := q })
  | .tryPush t, s =>
    let (b, q) := exec elem (SpscQueue.tryPush capacity t) s.fifo
    (.verdict b, { s with fifo := q })
  | .waitPush t, s =>
    let (r, q) := exec elem (SpscQueue.waitPush capacity t) s.fifo
    (if r.isSome then .done else .waits, { s with fifo := q })
  | .push ret n, s =>
    let (r, q) := exec elem (SpscQueue.push elem capacity ret n) s.fifo
    (.count r.toNat, { s with fifo := q })
  | .tryReserve1, s =>
    let (p, q) := exec elem (SpscQueue.tryReserve1 capacity) s.fifo
    (.reserved p.isSome, ⟨q, p⟩)
  | .reserve1, s =>
    let (p, q) := exec elem (SpscQueue.reserve1 capacity) s.fifo
    (if p.isSome then .reserved true else .waits, ⟨q, p⟩)
  | .assign t, s =>
    (.done, match s.pointer with
      | some p => { s with fifo := { s.fifo with arr := setSlot s.fifo.arr p t } }
      | none => s)
  | .finish1, s => (.done, { s with fifo := (exec elem SpscQueue.finish1 s.fifo).2 })
  | .pop t, s =>
    let ((b, t), q) := exec elem (SpscQueue.pop capacity t) s.fifo
    (.popped b t, { s with fifo := q })
  | .popBulk ret n, s =>
    let ((r, ret), q) := exec elem (SpscQueue.popBulk elem capacity ret n) s.fifo
    (.batch r.toNat ret, { s with fifo := q })
  | .peek max, s =>
    let ((n, p), q) := exec elem (SpscQueue.peek capacity max) s.fifo
    (.peeked (walked capacity q.arr p n.toNat), { s with fifo := q })
  | .consume n, s => (.done, { s with fifo := (exec elem (SpscQueue.consume n) s.fifo).2 })

end Client

/-! ## Refinement -/

variable {elem : Element T} {capacity : Capacity}

/-- The reserved slot is the one after the youngest element, and holds what
was written to it. -/
def Reservation.Stands (capacity : Capacity) (s : Client T) (p n : Nat) : Reservation T → Prop
  | .absent => True
  | .blank => n < capacity.size ∧ s.pointer = some (capacity.slot p)
  | .written t => n < capacity.size ∧ s.pointer = some (capacity.slot p)
      ∧ s.fifo.arr (capacity.slot p) = t

/-- The code's queue holds the specified list, at some position. -/
def Represents (capacity : Capacity) (s : Client T) (t : RingSpec T capacity.size) : Prop :=
  ∃ lo, Holds capacity s.fifo lo t.queue.items
    ∧ t.reservation.Stands capacity s (lo + t.queue.items.length) t.queue.items.length

theorem represents_fresh (arr : Nat → T) :
    Represents capacity (.fresh arr) (.fresh : RingSpec T capacity.size) :=
  ⟨0, ⟨rfl, rfl, Nat.zero_le _, fun _ hi => absurd hi (Nat.not_lt_zero _)⟩, trivial⟩

theorem toInt_toNat_of_nonneg {n : CInt} (h : 0 ≤ n.toInt) : n.toInt.toNat = n.toNat := by
  have hlt := n.isLt
  rw [BitVec.toInt_eq_toNat_cond] at h ⊢
  split at h <;> omega

theorem firstN_take (ret : Nat → T) (n m : Nat) : (firstN ret n).take m = firstN ret (min m n) := by
  rw [firstN, ← List.map_take, List.take_range, firstN]

/-- What the walk over `n` peeked slots reads. -/
theorem walked_eq {q : Fifo T} {lo n : Nat} {l : List T} (h : Holds capacity q lo l)
    (hn : n ≤ l.length) : Client.walked capacity q.arr (capacity.slot lo) n = l.take n := by
  refine List.ext_getElem? ?_
  intro i
  rcases Nat.lt_or_ge i n with hi | hi
  · rw [Client.walked, List.getElem?_map, List.getElem?_range hi, List.getElem?_take_of_lt hi,
      h.slots i (by omega), Option.map_some, walk_iterate]
  · rw [List.getElem?_eq_none (by simpa [Client.walked] using hi),
      List.getElem?_eq_none (by rw [List.length_take]; omega)]

theorem overlay_eq {l : List T} {ret ret' : Nat → T} {k : Nat} (hk : k ≤ l.length)
    (hin : ∀ i, i < k → l[i]? = some (ret' i)) (hout : ∀ i, k ≤ i → ret' i = ret i) :
    ret' = overlay (l.take k) ret := by
  funext i
  unfold overlay
  rcases Nat.lt_or_ge i k with hi | hi
  · rw [List.getElem?_take_of_lt hi, hin i hi, Option.getD_some]
  · rw [List.getElem?_eq_none (by rw [List.length_take]; omega), hout i hi, Option.getD_none]

theorem Reservation.Stands.absent_of_full {s s' : Client T} {p n : Nat} {r : Reservation T}
    (h : r.Stands capacity s p n) (hfull : ¬ n < capacity.size) : r.Stands capacity s' p n := by
  cases r with
  | absent => exact trivial
  | blank | written v => exact absurd h.1 hfull

theorem Reservation.Stands.pointer {s : Client T} {p n : Nat} {r : Reservation T}
    (h : r.Stands capacity s p n) (hr : r ≠ .absent) :
    n < capacity.size ∧ s.pointer = some (capacity.slot p) := by
  cases r with
  | absent => exact absurd rfl hr
  | blank => exact h
  | written v => exact ⟨h.1, h.2.1⟩

/-- The reserved slot is outside the list. -/
theorem Holds.assign {q : Fifo T} {lo : Nat} {l : List T} (h : Holds capacity q lo l)
    (hroom : l.length < capacity.size) (v : T) :
    Holds capacity { q with arr := setSlot q.arr (capacity.slot (lo + l.length)) v } lo l where
  in_eq := h.in_eq
  out_eq := h.out_eq
  bound := h.bound
  slots i hi := by
    have hone : Stores capacity (lo + l.length) 1 (fun _ => v) q.arr
        (setSlot q.arr (capacity.slot (lo + l.length)) v) := .one v
    rw [h.slots i hi]
    exact congrArg some
      (hone.other lo (by omega) (by omega) (by omega) (by omega) (.inl (by omega))).symm

namespace Represents

variable {s : Client T} {t : RingSpec T capacity.size} {q : Fifo T}

theorem append {lo : Nat} {xs : List T} {p : Option Nat}
    (h : Holds capacity q lo (t.queue.items ++ xs.take t.queue.free)) :
    Represents capacity ⟨q, p⟩ (t.append xs) :=
  ⟨lo, h, trivial⟩

/-- Removing the oldest elements keeps a reservation: its slot is free. -/
theorem drop {lo k : Nat} (hk : k ≤ t.queue.items.length)
    (hstands : t.reservation.Stands capacity s (lo + t.queue.items.length) t.queue.items.length)
    (h : Holds capacity q (lo + k) (t.queue.items.drop k))
    (hkept : FreeKept capacity lo t.queue.items s.fifo q) :
    Represents capacity { s with fifo := q } (t.drop k) := by
  refine ⟨lo + k, h, ?_⟩
  have hlen : (t.queue.items.drop k).length = t.queue.items.length - k := List.length_drop
  have hpos : lo + k + (t.queue.items.length - k) = lo + t.queue.items.length := by omega
  simp only [RingSpec.drop, BoundedFifo.drop_items, hlen, hpos]
  cases hres : t.reservation with
  | absent => exact trivial
  | blank =>
      rw [hres] at hstands
      obtain ⟨hroom, hpointer⟩ := hstands
      exact ⟨by omega, hpointer⟩
  | written v =>
      rw [hres] at hstands
      obtain ⟨hroom, hpointer, hv⟩ := hstands
      exact ⟨by omega, hpointer, (hkept _ (Nat.le_refl _) hroom).trans hv⟩

end Represents

/-- Every call, completed before the next begins, answers as specified and
keeps representing the specified list. -/
theorem client_refines (elem : Element T) (capacity : Capacity) :
    CallSequence.Refines (Client.step elem capacity)
      (RingSpec.step (c := capacity.size)) (Represents capacity) := by
  rintro q s t a t' ⟨lo, hholds, hstands⟩ hspec
  cases q with
  | readAvailable =>
      obtain ⟨rfl, rfl⟩ := Prod.mk.inj (Option.some.inj hspec)
      exact ⟨congrArg _ (readAvailable_exec elem hholds).1, lo, hholds, hstands⟩
  | tryPush v =>
      simp only [RingSpec.step] at hspec
      split at hspec
      · next hroom =>
          obtain ⟨rfl, rfl⟩ := Prod.mk.inj (Option.some.inj hspec)
          obtain ⟨hverdict, hpushed⟩ := tryPush_exec elem hholds v hroom
          rw [← BoundedFifo.append_singleton_items hroom] at hpushed
          exact ⟨congrArg _ hverdict, .append hpushed⟩
      · next hfull =>
          obtain ⟨rfl, rfl⟩ := Prod.mk.inj (Option.some.inj hspec)
          simp only [Client.step, tryPush_exec_full elem hholds v hfull]
          exact ⟨trivial, lo, hholds, hstands⟩
  | waitPush v =>
      simp only [RingSpec.step] at hspec
      obtain ⟨hroom, heq⟩ := Option.ite_none_right_eq_some.mp hspec
      obtain ⟨rfl, rfl⟩ := Prod.mk.inj (Option.some.inj heq)
      obtain ⟨hdone, hpushed⟩ := waitPush_exec elem hholds v hroom
      rw [← BoundedFifo.append_singleton_items hroom] at hpushed
      simp only [Client.step, hdone]
      exact ⟨rfl, .append hpushed⟩
  | push ret n =>
      simp only [RingSpec.step] at hspec
      obtain ⟨hn, heq⟩ := Option.ite_none_right_eq_some.mp hspec
      obtain ⟨rfl, rfl⟩ := Prod.mk.inj (Option.some.inj heq)
      obtain ⟨hcount, hpushed⟩ := push_exec elem hholds ret n
      rw [hcount, Nat.min_comm, ← firstN_take, ← toInt_toNat_of_nonneg hn] at hpushed
      rw [← toInt_toNat_of_nonneg hn] at hcount
      exact ⟨congrArg _ hcount, .append hpushed⟩
  | tryReserve1 =>
      simp only [RingSpec.step] at hspec
      split at hspec
      · next hroom =>
          obtain ⟨rfl, rfl⟩ := Prod.mk.inj (Option.some.inj hspec)
          simp only [Client.step, tryReserve1_exec elem hholds hroom]
          exact ⟨rfl, lo, hholds, hroom, rfl⟩
      · next hfull =>
          obtain ⟨rfl, rfl⟩ := Prod.mk.inj (Option.some.inj hspec)
          simp only [Client.step, tryReserve1_exec_full elem hholds hfull]
          exact ⟨rfl, lo, hholds, hstands.absent_of_full hfull⟩
  | reserve1 =>
      simp only [RingSpec.step] at hspec
      obtain ⟨hroom, heq⟩ := Option.ite_none_right_eq_some.mp hspec
      obtain ⟨rfl, rfl⟩ := Prod.mk.inj (Option.some.inj heq)
      simp only [Client.step, reserve1_exec elem hholds hroom]
      exact ⟨rfl, lo, hholds, hroom, rfl⟩
  | assign v =>
      simp only [RingSpec.step] at hspec
      have hpresent : t.reservation ≠ .absent := fun h => by rw [h] at hspec; cases hspec
      obtain ⟨hroom, hpointer⟩ := hstands.pointer hpresent
      have heq : some (RingReply.done, { t with reservation := .written v }) = some (a, t') := by
        split at hspec
        · next habsent => exact absurd habsent hpresent
        · exact hspec
      obtain ⟨rfl, rfl⟩ := Prod.mk.inj (Option.some.inj heq)
      simp only [Client.step, hpointer]
      exact ⟨trivial, lo, hholds.assign hroom v, hroom, rfl, setSlot_self _ _ _⟩
  | finish1 =>
      simp only [RingSpec.step] at hspec
      split at hspec
      · next v hwritten =>
          obtain ⟨rfl, rfl⟩ := Prod.mk.inj (Option.some.inj hspec)
          rw [hwritten] at hstands
          obtain ⟨hroom, -, hv⟩ := hstands
          have hpushed := finish1_exec elem hholds hroom
          rw [hv, ← BoundedFifo.append_singleton_items hroom] at hpushed
          exact ⟨rfl, .append hpushed⟩
      · cases hspec
  | pop v =>
      simp only [RingSpec.step] at hspec
      split at hspec
      · next hempty =>
          obtain ⟨rfl, rfl⟩ := Prod.mk.inj (Option.some.inj hspec)
          rw [hempty] at hholds
          simp only [Client.step, pop_exec_empty elem hholds v]
          exact ⟨trivial, lo, by rw [hempty]; exact hholds, hstands⟩
      · next x xs hcons =>
          obtain ⟨rfl, rfl⟩ := Prod.mk.inj (Option.some.inj hspec)
          rw [hcons] at hholds
          obtain ⟨hpopped, hrest, hkept⟩ := pop_exec elem hholds v
          refine ⟨?_, .drop (k := 1) (by rw [hcons]; exact Nat.succ_pos _) hstands
            (by rw [hcons]; exact hrest) (by rw [hcons]; exact hkept)⟩
          simp only [Client.step, hpopped]
  | popBulk ret n =>
      simp only [RingSpec.step] at hspec
      obtain ⟨hn, heq⟩ := Option.ite_none_right_eq_some.mp hspec
      obtain ⟨rfl, rfl⟩ := Prod.mk.inj (Option.some.inj heq)
      obtain ⟨hcount, hin, hout, hrest, hkept⟩ := popBulk_exec elem hholds ret n
      rw [← toInt_toNat_of_nonneg hn] at hcount
      rw [hcount] at hin hout hrest
      have hle : min n.toInt.toNat t.queue.items.length ≤ t.queue.items.length :=
        Nat.min_le_right _ _
      refine ⟨?_, .drop hle hstands hrest hkept⟩
      simp only [Client.step, hcount, overlay_eq hle hin hout]
  | peek max =>
      obtain ⟨rfl, rfl⟩ := Prod.mk.inj (Option.some.inj hspec)
      obtain ⟨n, hpeek, hn⟩ := peek_exec elem hholds max
      simp only [Client.step, hpeek]
      refine ⟨?_, lo, hholds, hstands⟩
      rw [hn, walked_eq hholds (Nat.min_le_right _ _), ← List.take_eq_take_min]
  | consume n =>
      simp only [RingSpec.step] at hspec
      obtain ⟨hn, heq⟩ := Option.ite_none_right_eq_some.mp hspec
      obtain ⟨rfl, rfl⟩ := Prod.mk.inj (Option.some.inj heq)
      exact ⟨rfl, .drop hn hstands (consume_exec elem hholds hn) fun _ _ _ => rfl⟩

/-- Any sequence of calls on a fresh queue, each completed before the next
begins, is answered as the bounded list answers it, however often the
counters wrap. -/
theorem queue_is_bounded_list {calls : List (RingCall T)} {replies : List (RingReply T)}
    {t : RingSpec T capacity.size} (arr : Nat → T)
    (h : CallSequence.expect RingSpec.step calls RingSpec.fresh = some (replies, t)) :
    let r := CallSequence.perform (Client.step elem capacity) calls (.fresh arr)
    r.1 = replies ∧ Represents capacity r.2 t :=
  (client_refines elem capacity).run (represents_fresh arr) h

/-- Two slots: a push, a reservation that is written and finished, a refusal,
a pop that leaves garbage behind, and the count that remains. -/
theorem queue_is_bounded_list_two :
    (CallSequence.perform (Client.step ⟨false, fun _ => 0⟩ .two)
      [.tryPush 5, .tryReserve1, .assign 6, .finish1, .tryPush 7, .pop 1, .readAvailable]
      (.fresh fun _ => 9)).1
    = [.verdict true, .reserved true, .done, .done, .verdict false, .popped true 5,
        .available 1] :=
  (queue_is_bounded_list (fun _ => 9) rfl).1

end LockFreeRingBuf
