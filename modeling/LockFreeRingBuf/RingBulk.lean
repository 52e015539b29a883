import LockFreeRingBuf.RingIntegrity
import LockFreeRingBuf.RingSpec

/-!
# Bulk calls against repeated single calls

The caller who does not use the bulk calls writes a loop: `try_push` on one
value after another until `n` are accepted or one is refused, and likewise
`pop`. `pushSingly` and `popSingly` are these two loops over the
single-element operations. Both worker specialisations are compared with
them from every pair of counters that are at most `capacity` apart, at
whatever distance from the wrap.

A loop of pushes stores a window of slots value by value, a bulk push
stores the same window in two segments; a window determines the whole
array (`Stores.unique`), so the two leave the same memory.
-/

namespace LockFreeRingBuf

open Resumption Transition

variable {T : Type}

/-! ## Bounded states -/

/-- The counters are at most `capacity` apart. -/
def Fifo.Bounded (capacity : Capacity) (q : Fifo T) : Prop :=
  (q.in_ - q.out).toNat ≤ capacity.size

instance (capacity : Capacity) (q : Fifo T) : Decidable (q.Bounded capacity) :=
  inferInstanceAs (Decidable ((q.in_ - q.out).toNat ≤ capacity.size))

/-- The values between the counters, oldest first. -/
def Fifo.window (capacity : Capacity) (q : Fifo T) : List T :=
  firstN (fun i => q.arr (capacity.slot (q.out.toNat + i))) (q.in_ - q.out).toNat

@[simp] theorem Fifo.window_length (capacity : Capacity) (q : Fifo T) :
    (q.window capacity).length = (q.in_ - q.out).toNat :=
  firstN_length _ _

/-- A bounded state holds what is between its counters. -/
theorem Fifo.Bounded.holds {capacity : Capacity} {q : Fifo T} (h : q.Bounded capacity) :
    Holds capacity q q.out.toNat (q.window capacity) where
  in_eq := by
    rw [Fifo.window_length, ← BitVec.toNat_inj, BitVec.toNat_ofNat, ← BitVec.toNat_add,
      BitVec.add_comm, BitVec.sub_add_cancel]
  out_eq := by rw [BitVec.ofNat_toNat, BitVec.setWidth_eq]
  bound := by rw [Fifo.window_length]; exact h
  slots i hi := firstN_getElem? _ (by rwa [Fifo.window_length] at hi)

/-- Whatever the two threads are in the middle of, the ring is bounded. -/
theorem reachable_bounded (elem : Element T) {capacity : Capacity} {s : Config T}
    (h : (ringSystem elem capacity).Reachable s) : s.shared.toFifo.Bounded capacity := by
  have hcounters := counters_reachable h
  rw [Fifo.Bounded, hcounters.sub_toNat]
  exact hcounters.level_le

/-! ## The loops over single calls -/

section

variable (capacity : Capacity)

/-- `try_push` on `ret[i], ret[i + 1], ...` until `n` are accepted or one is
refused; returns how many were accepted. -/
def pushSingly (ret : Nat → T) : (i n : Nat) → QueueProg T CInt
  | _, 0 => return 0#32
  | i, n + 1 => do
    let accepted ← SpscQueue.tryPush capacity (ret i)
    if accepted then
      let count ← pushSingly ret (i + 1) n
      return count + 1#32
    else
      return 0#32

/-- `pop` into `ret[i], ret[i + 1], ...` until `n` succeed or one fails;
returns how many succeeded, and the caller's array. -/
def popSingly : (ret : Nat → T) → (i n : Nat) → QueueProg T (CInt × (Nat → T))
  | ret, _, 0 => return (0#32, ret)
  | ret, i, n + 1 => do
    let (popped, t) ← SpscQueue.pop capacity (ret i)
    if popped then
      let (count, ret) ← popSingly (setSlot ret i t) (i + 1) n
      return (count + 1#32, ret)
    else
      return (0#32, ret)

end

section

variable {capacity : Capacity} {q : Fifo T} {lo : Nat} {l : List T} (elem : Element T)

/-- The loop of pushes stores `min(n, free)` values and bumps `in` by as many. -/
theorem pushSingly_stores (h : Holds capacity q lo l) (ret : Nat → T) (i n : Nat) :
    ∃ len arr', exec elem (pushSingly capacity ret i n) q
        = (len, { q with in_ := q.in_ + len, arr := arr' })
      ∧ len.toNat = min n (capacity.size - l.length)
      ∧ Stores capacity (lo + l.length) len.toNat (fun x => ret (i + x)) q.arr arr' := by
  induction n generalizing q l i with
  | zero => exact ⟨0#32, q.arr, by rw [BitVec.add_zero]; rfl, by simp, .zero⟩
  | succ n ih =>
      simp only [pushSingly, exec_bind]
      by_cases hroom : l.length < capacity.size
      · rw [tryPush_exec_room elem h (ret i) hroom]
        obtain ⟨len, arr', hexec, hlen, hstores⟩ := ih (put_exec h (ret i) hroom) (i + 1)
        have hle := capacity.size_le
        rw [List.length_append, List.length_singleton] at hlen hstores
        have hsucc : (len + 1#32).toNat = len.toNat + 1 :=
          BitVec.toNat_add_of_lt (by simp; omega)
        refine ⟨len + 1#32, arr', ?_, by omega, ?_⟩
        · simp only [if_true, exec_bind, hexec, Prog.pure_eq, exec_ret]
          rw [BitVec.add_assoc, BitVec.add_comm 1#32]
        · rw [hsucc]
          refine .cons (hstores.congr fun x hx => ?_) rfl (by omega)
          exact congrArg ret (by omega)
      · rw [tryPush_exec_full elem h (ret i) hroom]
        refine ⟨0#32, q.arr, ?_, ?_, .zero⟩
        · rw [BitVec.add_zero]; rfl
        · simp only [BitVec.toNat_ofNat]; omega

/-- The loop of pops loads `min(n, length)` values and bumps `out` by as many. -/
theorem popSingly_loads (h : Holds capacity q lo l) (ret : Nat → T) (i n : Nat) :
    ∃ len ret' arr', exec elem (popSingly capacity ret i n) q
        = ((len, ret'), { q with out := q.out + len, arr := arr' })
      ∧ len.toNat = min n l.length
      ∧ Stores capacity lo len.toNat (fun x => elem.moved (q.arr (capacity.slot (lo + x))))
        q.arr arr'
      ∧ (∀ x, x < len.toNat → ret' (i + x) = q.arr (capacity.slot (lo + x)))
      ∧ ∀ x, x < i ∨ i + len.toNat ≤ x → ret' x = ret x := by
  induction n generalizing q lo l i ret with
  | zero =>
      exact ⟨0#32, ret, q.arr, by rw [BitVec.add_zero]; rfl, by simp, .zero,
        fun x hx => absurd hx (Nat.not_lt_zero x), fun _ _ => rfl⟩
  | succ n ih =>
      simp only [popSingly, exec_bind]
      cases l with
      | nil =>
          rw [pop_exec_empty elem h (ret i)]
          refine ⟨0#32, ret, q.arr, ?_, by simp, .zero,
            fun x hx => absurd hx (Nat.not_lt_zero x), fun _ _ => rfl⟩
          rw [BitVec.add_zero]; rfl
      | cons v l =>
          have hpop := pop_exec_cons elem h (ret i)
          have hrest := (pop_exec elem h (ret i)).2.1
          rw [hpop] at hrest ⊢
          have hv : q.arr (capacity.slot lo) = v :=
            (Option.some.inj (h.slots 0 (Nat.succ_pos _))).symm
          obtain ⟨len, ret', arr', hexec, hlen, hstores, hin, hout⟩ := ih hrest
            (setSlot ret i v) (i + 1)
          have hbound := h.bound
          have hle := capacity.size_le
          simp only [List.length_cons] at hbound ⊢
          have hsucc : (len + 1#32).toNat = len.toNat + 1 :=
            BitVec.toNat_add_of_lt (by simp; omega)
          have hone : Stores capacity lo 1 _ q.arr _ := .one (elem.moved v)
          have hsame : ∀ x, x < len.toNat →
              setSlot q.arr (capacity.slot lo) (elem.moved v) (capacity.slot (lo + 1 + x))
                = q.arr (capacity.slot (lo + (x + 1))) := by
            intro x hx
            rw [show lo + 1 + x = lo + (x + 1) by omega]
            exact hone.other lo (by omega) (by omega) (by omega) (by omega) (.inr (by omega))
          refine ⟨len + 1#32, ret', arr', ?_, by omega, ?_, fun x hx => ?_, fun x hx => ?_⟩
          · simp only [if_true, exec_bind, hexec, Prog.pure_eq, exec_ret]
            rw [BitVec.add_assoc, BitVec.add_comm 1#32]
          · rw [hsucc]
            refine .cons (hstores.congr ?_) (congrArg elem.moved hv) (by omega)
            intro x hx
            exact congrArg elem.moved (hsame x hx)
          · cases x with
            | zero => rw [Nat.add_zero, Nat.add_zero, hout i (by omega), setSlot_self, hv]
            | succ x =>
                rw [show i + (x + 1) = i + 1 + x by omega, hin x (by omega)]
                exact hsame x (by omega)
          · rw [hout x (by omega), setSlot_of_ne _ (by omega)]

/-- Both bodies of the bulk push do what the loop does. -/
theorem pushWith_eq_pushSingly (h : q.Bounded capacity) (ret : Nat → T) {n : CInt}
    (hn : 0 ≤ n.toInt) :
    exec elem (pushWith capacity (storeSlots ret) n) q
      = exec elem (pushSingly capacity ret 0 n.toInt.toNat) q := by
  obtain ⟨len₁, arr₁, hexec₁, hlen₁, hstores₁⟩ := pushWith_stores elem h.holds ret n
  obtain ⟨len₂, arr₂, hexec₂, hlen₂, hstores₂⟩ :=
    pushSingly_stores elem h.holds ret 0 n.toInt.toNat
  rw [toInt_toNat_of_nonneg hn, ← hlen₁] at hlen₂
  obtain rfl : len₂ = len₁ := BitVec.toNat_inj.mp hlen₂
  rw [hexec₁, hexec₂, hstores₁.unique (hstores₂.congr fun x _ => congrArg ret (Nat.zero_add x))]

/-- Either body of the bulk pop delivers what the loop delivers, and leaves the
same counters. `g` is what it leaves in a slot, as a move does or otherwise. -/
theorem popWith_eq_popSingly {fetch : Nat → QueueProg T T} {g : T → T}
    (hfetch : Leaves elem fetch g) (h : q.Bounded capacity) (ret : Nat → T) {n : CInt}
    (hn : 0 ≤ n.toInt) :
    let r := exec elem (popWith capacity (loadSlots fetch) ret n) q
    let r' := exec elem (popSingly capacity ret 0 n.toInt.toNat) q
    r.1 = r'.1 ∧ r.2.in_ = r'.2.in_ ∧ r.2.out = r'.2.out
      ∧ (g = elem.moved → r = r') := by
  obtain ⟨len₁, ret₁, arr₁, hexec₁, hlen₁, hstores₁, hin₁, hout₁⟩ :=
    popWith_loads hfetch h.holds ret n
  obtain ⟨len₂, ret₂, arr₂, hexec₂, hlen₂, hstores₂, hin₂, hout₂⟩ :=
    popSingly_loads elem h.holds ret 0 n.toInt.toNat
  rw [toInt_toNat_of_nonneg hn, ← hlen₁] at hlen₂
  obtain rfl : len₂ = len₁ := BitVec.toNat_inj.mp hlen₂
  have hret : ret₁ = ret₂ := by
    funext x
    rcases Nat.lt_or_ge x len₂.toNat with hx | hx
    · rw [hin₁ x hx, ← hin₂ x hx, Nat.zero_add]
    · rw [hout₁ x hx, hout₂ x (.inr (by omega))]
  simp only [hexec₁, hexec₂, hret]
  refine ⟨trivial, trivial, trivial, ?_⟩
  rintro rfl
  rw [hstores₁.unique hstores₂]

/-- From any bounded state, for any length that is not negative, the bulk calls
of both workers are the loops over single calls. A push leaves the same memory,
every slot included; a pop delivers the same values to the same places and
leaves the same counters, and the same slots where both move. -/
theorem bulk_calls_are_loops (elem : Element T) (capacity : Capacity) (q : Fifo T)
    (h : q.Bounded capacity) (ret : Nat → T) (n : CInt) (hn : 0 ≤ n.toInt) :
    let pushed := exec elem (pushSingly capacity ret 0 n.toInt.toNat) q
    let popped := exec elem (popSingly capacity ret 0 n.toInt.toNat) q
    let popTrivial := exec elem (SpscWorker.popTrivial capacity ret n) q
    exec elem (SpscWorker.pushTrivial capacity ret n) q = pushed
      ∧ exec elem (SpscWorker.pushNontrivial capacity ret n) q = pushed
      ∧ exec elem (SpscWorker.popNontrivial capacity ret n) q = popped
      ∧ (popTrivial.1 = popped.1 ∧ popTrivial.2.in_ = popped.2.in_
        ∧ popTrivial.2.out = popped.2.out ∧ (elem.moved = id → popTrivial = popped)) := by
  have hpush := pushWith_eq_pushSingly elem h ret hn
  have hmove := popWith_eq_popSingly elem leaves_moveSlot h ret hn
  obtain ⟨hresult, hin, hout, hall⟩ := popWith_eq_popSingly elem leaves_readSlot h ret hn
  exact ⟨hpush, hpush, hmove.2.2.2 rfl, hresult, hin, hout, fun hid => hall hid.symm⟩

/-- Two slots, one taken, and `in` just past the wrap: of three values one is
accepted, by the bulk call and by the loop. -/
theorem bulk_calls_are_loops_wrapped :
    let q : Fifo Nat := ⟨0#32, 0xFFFFFFFF#32, fun _ => 9⟩
    (exec ⟨true, id⟩ (SpscWorker.pushTrivial .two id 3#32) q).1 = 1#32
      ∧ exec ⟨true, id⟩ (SpscWorker.pushTrivial .two id 3#32) q
        = exec ⟨true, id⟩ (pushSingly .two id 0 3) q :=
  ⟨by decide, (bulk_calls_are_loops ⟨true, id⟩ .two _ (by decide) id 3#32 (by decide)).1⟩

end

end LockFreeRingBuf
