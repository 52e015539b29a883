import LockFreeRingBuf.RingThreads

/-!
# Uninterrupted operations

What each operation of `RingQueue` does when nothing runs between its
accesses, in terms of the list of elements the ring holds. `Holds` ties
the memory to that list and to the unbounded position of its oldest
element; a transfer writes a window of slots (`Stores`), whichever way the
window is cut at the end of the array.
-/

namespace LockFreeRingBuf

open Resumption Transition

variable {T : Type} {elem : Element T} {capacity : Capacity}

/-- Perform a program to its end, alone. -/
def exec {α : Type} (elem : Element T) (p : QueueProg T α) (q : Fifo T) : α × Fifo T :=
  p.run (Fifo.perform elem) q

@[simp] theorem exec_ret {α : Type} (x : α) (q : Fifo T) : exec elem (.ret x) q = (x, q) := rfl

@[simp] theorem exec_act {α : Type} (a : Access T) (k : a.Answer → QueueProg T α) (q : Fifo T) :
    exec elem (.act a k) q = exec elem (k (q.perform elem a).1) (q.perform elem a).2 := rfl

theorem exec_bind {α β : Type} (p : QueueProg T α) (f : α → QueueProg T β) (q : Fifo T) :
    exec elem (p >>= f) q = exec elem (f (exec elem p q).1) (exec elem p q).2 :=
  Prog.run_bind p f q

theorem exec_map {α β : Type} (f : α → β) (p : QueueProg T α) (q : Fifo T) :
    exec elem (f <$> p) q = (f (exec elem p q).1, (exec elem p q).2) :=
  exec_bind p (fun x => .ret (f x)) q

/-- The ring holds the list `l`, whose oldest element is at position `lo`. -/
structure Holds (capacity : Capacity) (q : Fifo T) (lo : Nat) (l : List T) : Prop where
  in_eq : q.in_ = BitVec.ofNat 32 (lo + l.length)
  out_eq : q.out = BitVec.ofNat 32 lo
  bound : l.length ≤ capacity.size
  slots : ∀ i, i < l.length → l[i]? = some (q.arr (capacity.slot (lo + i)))

/-- `arr'` is `arr` with `f 0, ..., f (n - 1)` in the slots from position `p` on. -/
structure Stores (capacity : Capacity) (p n : Nat) (f : Nat → T) (arr arr' : Nat → T) : Prop where
  stored : ∀ x, x < n → arr' (capacity.slot (p + x)) = f x
  kept : ∀ j, (∀ x, x < n → capacity.slot (p + x) ≠ j) → arr' j = arr j

/-- Outside the list `q` held from position `lo` on, `q'` has the same slots. -/
def FreeKept (capacity : Capacity) (lo : Nat) (l : List T) (q q' : Fifo T) : Prop :=
  ∀ i, l.length ≤ i → i < capacity.size →
    q'.arr (capacity.slot (lo + i)) = q.arr (capacity.slot (lo + i))

/-! ## Windows of slots -/

namespace Stores

variable {p n m : Nat} {f : Nat → T} {arr arr₁ arr₂ : Nat → T}

theorem zero : Stores capacity p 0 f arr arr :=
  ⟨fun _ hx => absurd hx (Nat.not_lt_zero _), fun _ _ => rfl⟩

/-- Two adjacent windows make one, as long as they do not wrap onto each other. -/
theorem append {g : Nat → T} (h : Stores capacity p n f arr arr₁)
    (h' : Stores capacity (p + n) m g arr₁ arr₂) (hnm : n + m ≤ capacity.size) :
    Stores capacity p (n + m) (fun x => if x < n then f x else g (x - n)) arr arr₂ where
  stored x hx := by
    split
    · next hxn =>
        rw [← h.stored x hxn]
        refine h'.kept _ ?_
        intro y hy heq
        have := capacity.slot_inj p (by omega) (by omega) (by omega) (by omega) heq
        omega
    · next hxn =>
        rw [← h'.stored (x - n) (by omega)]
        congr 2; omega
  kept j hj := by
    rw [h'.kept j fun y hy heq => hj (n + y) (by omega) (by rwa [← Nat.add_assoc]),
      h.kept j fun x hx heq => hj x (by omega) heq]

theorem congr {g : Nat → T} (h : Stores capacity p n f arr arr₁) (hfg : ∀ x, x < n → f x = g x) :
    Stores capacity p n g arr arr₁ where
  stored x hx := (h.stored x hx).trans (hfg x hx)
  kept := h.kept

theorem one (v : T) : Stores capacity p 1 (fun _ => v) arr
    (setSlot arr (capacity.slot p) v) where
  stored x hx := by
    obtain rfl : x = 0 := by omega
    exact setSlot_self _ _ _
  kept j hj := setSlot_of_ne _ (fun heq => hj 0 Nat.one_pos heq.symm) _

/-- A window grows by one value at its front. -/
theorem cons {v : T} (h : Stores capacity (p + 1) n (fun x => f (x + 1))
      (setSlot arr (capacity.slot p) v) arr₁) (hv : f 0 = v) (hn : n + 1 ≤ capacity.size) :
    Stores capacity p (n + 1) f arr arr₁ := by
  have hall := (one v).append h (by omega)
  rw [Nat.add_comm 1 n] at hall
  refine hall.congr ?_
  intro x hx
  split
  · next hx0 =>
      obtain rfl : x = 0 := by omega
      exact hv.symm
  · exact congrArg f (by omega)

/-- A window and what was there before determine the array. -/
theorem unique (h₁ : Stores capacity p n f arr arr₁) (h₂ : Stores capacity p n f arr arr₂) :
    arr₁ = arr₂ := by
  funext j
  by_cases hj : ∃ x, x < n ∧ capacity.slot (p + x) = j
  · obtain ⟨x, hx, rfl⟩ := hj
    rw [h₁.stored x hx, h₂.stored x hx]
  · have hout : ∀ x, x < n → capacity.slot (p + x) ≠ j := fun x hx heq => hj ⟨x, hx, heq⟩
    rw [h₁.kept j hout, h₂.kept j hout]

/-- Slots of positions less than one ring away keep their values. -/
theorem other (h : Stores capacity p n f arr arr₁) (lo : Nat) {i : Nat} (hlo : lo ≤ p) (hi : lo ≤ i)
    (hp : p + n ≤ lo + capacity.size) (hic : i < lo + capacity.size)
    (hout : i < p ∨ p + n ≤ i) : arr₁ (capacity.slot i) = arr (capacity.slot i) := by
  refine h.kept _ ?_
  intro x hx heq
  have := capacity.slot_inj lo (by omega) hi (by omega) hic heq
  omega

end Stores

/-! ## The list a ring holds -/

namespace Holds

variable {q : Fifo T} {lo : Nat} {l : List T}

theorem sub_toNat (h : Holds capacity q lo l) : (q.in_ - q.out).toNat = l.length := by
  have hle := capacity.size_le
  have hbound := h.bound
  rw [h.in_eq, h.out_eq, Counter.sub_ofNat (by omega) (by omega)]
  omega

theorem free_toNat (h : Holds capacity q lo l) :
    (capacity.val - q.in_ + q.out).toNat = capacity.size - l.length := by
  have hbound := h.bound
  rw [h.in_eq, h.out_eq, Counter.free_ofNat (by omega) (by unfold Capacity.size at hbound; omega)]
  unfold Capacity.size
  omega

theorem full_iff (h : Holds capacity q lo l) :
    capacity.val - q.in_ + q.out = 0#32 ↔ ¬ l.length < capacity.size := by
  have hbound := h.bound
  rw [← BitVec.toNat_inj, h.free_toNat, BitVec.toNat_ofNat, Nat.zero_mod]
  omega

theorem empty_iff (h : Holds capacity q lo l) : q.in_ - q.out = 0#32 ↔ l = [] := by
  rw [← BitVec.toNat_inj, h.sub_toNat, BitVec.toNat_ofNat, Nat.zero_mod, List.length_eq_zero_iff]

/-- Storing `xs` after the youngest element and bumping `in`. -/
theorem append {xs : List T} {f : Nat → T} {arr' : Nat → T} {n : Unsigned}
    (h : Holds capacity q lo l) (hn : n.toNat = xs.length)
    (hbound : l.length + xs.length ≤ capacity.size)
    (hf : ∀ x, x < xs.length → xs[x]? = some (f x))
    (hstores : Stores capacity (lo + l.length) xs.length f q.arr arr') :
    Holds capacity { q with in_ := q.in_ + n, arr := arr' } lo (l ++ xs) where
  in_eq := by
    rw [h.in_eq, Counter.ofNat_add_bits, hn, List.length_append, Nat.add_assoc]
  out_eq := h.out_eq
  bound := by rw [List.length_append]; exact hbound
  slots i hi := by
    rw [List.length_append] at hi
    rcases Nat.lt_or_ge i l.length with hold | hnew
    · rw [List.getElem?_append_left hold, h.slots i hold]
      exact congrArg some
        (hstores.other lo (by omega) (by omega) (by omega) (by omega) (by omega)).symm
    · rw [List.getElem?_append_right hnew, hf _ (by omega), ← hstores.stored _ (by omega)]
      exact congrArg (fun j => some (arr' (capacity.slot j))) (by omega)

/-- Writing over the slots of the `k` oldest elements and bumping `out`. -/
theorem drop {f : Nat → T} {arr' : Nat → T} {k : Unsigned} (h : Holds capacity q lo l)
    (hk : k.toNat ≤ l.length) (hstores : Stores capacity lo k.toNat f q.arr arr') :
    Holds capacity { q with out := q.out + k, arr := arr' } (lo + k.toNat) (l.drop k.toNat) where
  in_eq := by
    rw [h.in_eq, List.length_drop]
    congr 1; omega
  out_eq := by rw [h.out_eq, Counter.ofNat_add_bits]
  bound := by
    have hbound := h.bound
    rw [List.length_drop]; omega
  slots i hi := by
    have hbound := h.bound
    rw [List.length_drop] at hi
    rw [List.getElem?_drop, h.slots _ (by omega), ← Nat.add_assoc]
    exact congrArg some
      (hstores.other lo (by omega) (by omega) (by omega) (by omega) (by omega)).symm

theorem freeKept {f : Nat → T} {arr' : Nat → T} {k : Unsigned} (hk : k.toNat ≤ l.length)
    (hstores : Stores capacity lo k.toNat f q.arr arr') :
    FreeKept capacity lo l q { q with out := q.out + k, arr := arr' } := fun i hi hi' =>
  hstores.other lo (by omega) (by omega) (by omega) (by omega) (by omega)

theorem dropNothing {k : Unsigned} (h : Holds capacity q lo l) (hk : k.toNat ≤ l.length) :
    Holds capacity { q with out := q.out + k } (lo + k.toNat) (l.drop k.toNat) :=
  h.drop (f := fun x => q.arr (capacity.slot (lo + x))) hk ⟨fun _ _ => rfl, fun _ _ => rfl⟩

end Holds

/-! ## Single-element operations -/

section

variable {q : Fifo T} {lo : Nat} {l : List T} (elem)

theorem readAvailable_exec (h : Holds capacity q lo l) :
    (exec elem SpscQueue.readAvailable q).1.toNat = l.length
      ∧ (exec elem SpscQueue.readAvailable q).2 = q :=
  ⟨h.sub_toNat, rfl⟩

theorem tryPush_exec_full (h : Holds capacity q lo l) (v : T)
    (hfull : ¬ l.length < capacity.size) :
    exec elem (SpscQueue.tryPush capacity v) q = (false, q) := by
  simp only [SpscQueue.tryPush, readIn_bind, readOut_bind, exec_act, Fifo.perform,
    h.full_iff.mpr hfull, if_true, Prog.pure_eq, exec_ret]

/-- The next slot is written and `in` bumped. -/
theorem put_exec (h : Holds capacity q lo l) (v : T) (hroom : l.length < capacity.size) :
    Holds capacity
      { q with
        in_ := q.in_ + 1#32
        arr := setSlot q.arr (capacity.slot (lo + l.length)) v } lo (l ++ [v]) := by
  refine h.append (f := fun _ => v) rfl hroom (fun x hx => ?_) (.one v)
  obtain rfl : x = 0 := by simpa using hx
  rfl

theorem tryPush_exec_room (h : Holds capacity q lo l) (v : T) (hroom : l.length < capacity.size) :
    exec elem (SpscQueue.tryPush capacity v) q = (true, { q with
      in_ := q.in_ + 1#32
      arr := setSlot q.arr (capacity.slot (lo + l.length)) v }) := by
  have hnot := mt h.full_iff.mp (not_not_intro hroom)
  have hslot : (q.in_ &&& (capacity.val - 1#32)).toNat = capacity.slot (lo + l.length) := by
    rw [h.in_eq, capacity.mask_slot]
  simp only [SpscQueue.tryPush, readIn_bind, readOut_bind, writeSlot_bind, addIn_bind, exec_act,
    Fifo.perform, hnot, if_false, Prog.pure_eq, exec_ret, hslot]

theorem tryPush_exec (h : Holds capacity q lo l) (v : T) (hroom : l.length < capacity.size) :
    (exec elem (SpscQueue.tryPush capacity v) q).1 = true
      ∧ Holds capacity (exec elem (SpscQueue.tryPush capacity v) q).2 lo (l ++ [v]) := by
  rw [tryPush_exec_room elem h v hroom]
  exact ⟨rfl, put_exec h v hroom⟩

theorem waitPush_exec (h : Holds capacity q lo l) (v : T) (hroom : l.length < capacity.size) :
    (exec elem (SpscQueue.waitPush capacity v) q).1 = some ()
      ∧ Holds capacity (exec elem (SpscQueue.waitPush capacity v) q).2 lo (l ++ [v]) := by
  have hnot := mt h.full_iff.mp (not_not_intro hroom)
  have hslot : (q.in_ &&& (capacity.val - 1#32)).toNat = capacity.slot (lo + l.length) := by
    rw [h.in_eq, capacity.mask_slot]
  simp only [SpscQueue.waitPush, SpscQueue.whileFull, readIn_bind, readOut_bind, writeSlot_bind,
    addIn, writeIn, Prog.access, Prog.act_bind, Prog.ret_bind, exec_act, Fifo.perform, hnot,
    if_false, Prog.pure_eq, exec_ret, hslot]
  exact ⟨trivial, put_exec h v hroom⟩

theorem pop_exec_empty (h : Holds capacity q lo []) (v : T) :
    exec elem (SpscQueue.pop capacity v) q = ((false, v), q) := by
  simp only [SpscQueue.pop, readIn_bind, readOut_bind, exec_act, Fifo.perform,
    h.empty_iff.mpr rfl, if_true, Prog.pure_eq, exec_ret]

theorem pop_exec_cons {x : T} (h : Holds capacity q lo (x :: l)) (v : T) :
    exec elem (SpscQueue.pop capacity v) q = ((true, x), { q with
      out := q.out + 1#32
      arr := setSlot q.arr (capacity.slot lo) (elem.moved x) }) := by
  have hnot := mt h.empty_iff.mp (List.cons_ne_nil x l)
  have hslot : (q.out &&& (capacity.val - 1#32)).toNat = capacity.slot lo := by
    rw [h.out_eq, capacity.mask_slot]
  have hx : q.arr (capacity.slot lo) = x :=
    (Option.some.inj (h.slots 0 (Nat.succ_pos _))).symm
  simp only [SpscQueue.pop, readIn_bind, readOut_bind, moveSlot_bind, addOut_bind, exec_act,
    Fifo.perform, hnot, if_false, Prog.pure_eq, exec_ret, hslot, hx]

theorem pop_exec {x : T} (h : Holds capacity q lo (x :: l)) (v : T) :
    let r := exec elem (SpscQueue.pop capacity v) q
    r.1 = (true, x) ∧ Holds capacity r.2 (lo + 1) l ∧ FreeKept capacity lo (x :: l) q r.2 := by
  have hstores : Stores capacity lo 1 _ q.arr _ := .one (elem.moved x)
  simp only [pop_exec_cons elem h v]
  exact ⟨trivial, h.drop (k := 1#32) (by simp) hstores,
    Holds.freeKept (k := 1#32) (by simp) hstores⟩

theorem tryReserve1_exec_full (h : Holds capacity q lo l) (hfull : ¬ l.length < capacity.size) :
    exec elem (SpscQueue.tryReserve1 capacity) q = (none, q) := by
  simp only [SpscQueue.tryReserve1, readIn_bind, readOut_bind, exec_act, Fifo.perform,
    h.full_iff.mpr hfull, if_true, Prog.pure_eq, exec_ret]

theorem tryReserve1_exec (h : Holds capacity q lo l) (hroom : l.length < capacity.size) :
    exec elem (SpscQueue.tryReserve1 capacity) q
      = (some (capacity.slot (lo + l.length)), q) := by
  have hnot := mt h.full_iff.mp (not_not_intro hroom)
  simp only [SpscQueue.tryReserve1, readIn_bind, readOut_bind, exec_act, Fifo.perform, hnot,
    if_false, Prog.pure_eq, exec_ret]
  rw [h.in_eq, capacity.fifo_mask_slot]

theorem reserve1_exec (h : Holds capacity q lo l) (hroom : l.length < capacity.size) :
    exec elem (SpscQueue.reserve1 capacity) q
      = (some (capacity.slot (lo + l.length)), q) := by
  have hnot := mt h.full_iff.mp (not_not_intro hroom)
  simp only [SpscQueue.reserve1, SpscQueue.whileFull, readIn_bind, readOut_bind, Prog.act_bind,
    Prog.ret_bind, exec_act, Fifo.perform, hnot, if_false, Prog.pure_eq, exec_ret]
  rw [h.in_eq, capacity.fifo_mask_slot]

/-- `finish_1` appends what stands in the next slot. -/
theorem finish1_exec (h : Holds capacity q lo l) (hroom : l.length < capacity.size) :
    Holds capacity (exec elem SpscQueue.finish1 q).2 lo
      (l ++ [q.arr (capacity.slot (lo + l.length))]) := by
  refine h.append (n := 1#32) (f := fun _ => q.arr (capacity.slot (lo + l.length))) rfl
    hroom (fun x hx => ?_) ⟨fun x hx => ?_, fun _ _ => rfl⟩
  · obtain rfl : x = 0 := by simpa using hx
    rfl
  · obtain rfl : x = 0 := by simpa using hx
    rfl

theorem peek_exec (h : Holds capacity q lo l) (max : Unsigned) :
    ∃ n, exec elem (SpscQueue.peek capacity max) q = ((n, capacity.slot lo), q)
      ∧ n.toNat = min max.toNat l.length := by
  refine ⟨min_ max (q.in_ - q.out), ?_, by rw [min_toNat, h.sub_toNat]⟩
  simp only [SpscQueue.peek, readIn_bind, readOut_bind, exec_act, Fifo.perform, Prog.pure_eq,
    exec_ret]
  rw [h.out_eq, capacity.fifo_mask_slot]

theorem consume_exec {k : Unsigned} (h : Holds capacity q lo l) (hk : k.toNat ≤ l.length) :
    Holds capacity (exec elem (SpscQueue.consume k) q).2 (lo + k.toNat) (l.drop k.toNat) :=
  h.dropNothing hk

/-- The walk from the slot of position `p` visits the slots of the positions
that follow. -/
theorem walk_iterate (p i : Nat) :
    (SpscQueue.walk capacity)^[i] (capacity.slot p) = capacity.slot (p + i) := by
  induction i with
  | zero => rfl
  | succ i ih => rw [Function.iterate_succ_apply', ih, capacity.walk_slot, Nat.add_assoc]

/-! ## Bulk operations -/

theorem storeSlots_exec {p k : Nat} (ret : Nat → T) (dst src : Nat) (q : Fifo T)
    (hk : k ≤ capacity.size) (hdst : ∀ x, x < k → dst + x = capacity.slot (p + x)) :
    ∃ arr', exec elem (storeSlots ret dst src k) q = ((), { q with arr := arr' })
      ∧ Stores capacity p k (fun x => ret (src + x)) q.arr arr' := by
  induction k generalizing p dst src q with
  | zero => exact ⟨q.arr, rfl, .zero⟩
  | succ k ih =>
      have hslot : dst = capacity.slot p := hdst 0 (Nat.succ_pos k)
      obtain ⟨arr', hexec, hstores⟩ := ih (p := p + 1) (dst + 1) (src + 1)
        { q with arr := setSlot q.arr dst (ret src) } (by omega) fun x hx => by
          rw [Nat.add_assoc p, Nat.add_comm 1 x, ← hdst (x + 1) (by omega)]; omega
      rw [hslot] at hstores
      refine ⟨arr', hexec, .cons (hstores.congr fun x hx => ?_) rfl hk⟩
      exact congrArg ret (by omega)

/-- The two segments of a push of `len` values, and the bump, store one window. -/
theorem pushSegments_exec (h : Holds capacity q lo l) (ret : Nat → T) (len : Unsigned)
    (hlen : l.length + len.toNat ≤ capacity.size) :
    let idxIn := q.in_ &&& capacity.mask
    let m := min_ len (capacity.val - idxIn)
    ∃ arr', exec elem (do
        storeSlots ret idxIn.toNat 0 m.toNat
        storeSlots ret 0 m.toNat (len - m).toNat
        addIn len
        return len) q = (len, { q with in_ := q.in_ + len, arr := arr' })
      ∧ Stores capacity (lo + l.length) len.toNat ret q.arr arr' := by
  intro idxIn m
  obtain ⟨hsum, hfst, hsnd⟩ : m.toNat + (len - m).toNat = len.toNat
      ∧ (∀ x, x < m.toNat → idxIn.toNat + x = capacity.slot (lo + l.length + x))
      ∧ (∀ x, x < (len - m).toNat → 0 + x = capacity.slot (lo + l.length + m.toNat + x)) := by
    simpa only [m, idxIn, h.in_eq, capacity.fifo_mask_slot] using
      capacity.segments (lo + l.length) len (by omega)
  obtain ⟨arr₁, hexec₁, hstores₁⟩ := storeSlots_exec elem ret _ 0 q (by omega) hfst
  obtain ⟨arr₂, hexec₂, hstores₂⟩ :=
    storeSlots_exec elem ret _ m.toNat { q with arr := arr₁ } (by omega) hsnd
  refine ⟨arr₂, ?_, ?_⟩
  · simp only [exec_bind]
    rw [hexec₁]
    simp only
    rw [hexec₂]
    rfl
  · have hstores := hstores₁.append hstores₂ (by omega)
    rw [hsum] at hstores
    refine hstores.congr ?_
    intro x hx
    split
    · exact congrArg ret (Nat.zero_add x)
    · exact congrArg ret (by omega)

/-- Both bodies of the bulk push store `min(n, free)` values and bump `in`. -/
theorem pushWith_stores (h : Holds capacity q lo l) (ret : Nat → T) (n : CInt) :
    ∃ len arr', exec elem (pushWith capacity (storeSlots ret) n) q
        = (len, { q with in_ := q.in_ + len, arr := arr' })
      ∧ len.toNat = min n.toNat (capacity.size - l.length)
      ∧ Stores capacity (lo + l.length) len.toNat ret q.arr arr' := by
  have hlen : (min_ n (capacity.val - q.in_ + q.out)).toNat
      = min n.toNat (capacity.size - l.length) := by
    rw [min_toNat, h.free_toNat]
  have hbound := h.bound
  simp only [pushWith, readIn_bind, readOut_bind, exec_act, Fifo.perform]
  by_cases hzero : min_ n (capacity.val - q.in_ + q.out) = 0#32
  · simp only [hzero, if_true, Prog.pure_eq, exec_ret]
    refine ⟨0#32, q.arr, by rw [BitVec.add_zero], ?_, .zero⟩
    rw [← hlen, hzero]
  · simp only [hzero, if_false, exec_act, Fifo.perform]
    obtain ⟨arr', hexec, hstores⟩ := pushSegments_exec elem h ret
      (min_ n (capacity.val - q.in_ + q.out)) (by omega)
    exact ⟨_, arr', hexec, hlen, hstores⟩

/-- In terms of the list: `min(n, free)` values are appended. -/
theorem pushWith_exec (h : Holds capacity q lo l) (ret : Nat → T) (n : CInt) :
    let r := exec elem (pushWith capacity (storeSlots ret) n) q
    r.1.toNat = min n.toNat (capacity.size - l.length)
      ∧ Holds capacity r.2 lo (l ++ firstN ret r.1.toNat) := by
  obtain ⟨len, arr', hexec, hlen, hstores⟩ := pushWith_stores elem h ret n
  have hbound := h.bound
  simp only [hexec]
  refine ⟨hlen, h.append (f := ret) (by rw [firstN_length]) (by rw [firstN_length]; omega)
    (fun x hx => firstN_getElem? ret (by rwa [firstN_length] at hx)) ?_⟩
  rw [firstN_length]
  exact hstores

variable {elem}

/-- How `loadSlots` reads one slot: `g` is what it leaves there. -/
def Leaves (elem : Element T) (fetch : Nat → QueueProg T T) (g : T → T) : Prop :=
  ∀ {α : Type} (i : Nat) (k : T → QueueProg T α) (q : Fifo T),
    exec elem (fetch i >>= k) q
      = exec elem (k (q.arr i)) { q with arr := setSlot q.arr i (g (q.arr i)) }

theorem leaves_readSlot : Leaves elem readSlot id := by
  intro α i k q
  simp only [readSlot_bind, exec_act, Fifo.perform, id, setSlot_eq_self]

theorem leaves_moveSlot : Leaves elem moveSlot elem.moved := fun _ _ _ => rfl

theorem loadSlots_exec {fetch : Nat → QueueProg T T} {g : T → T} (hfetch : Leaves elem fetch g)
    {p k : Nat} (ret : Nat → T) (dst src : Nat) (q : Fifo T) (hk : k ≤ capacity.size)
    (hsrc : ∀ x, x < k → src + x = capacity.slot (p + x)) :
    ∃ ret' arr', exec elem (loadSlots fetch ret dst src k) q = (ret', { q with arr := arr' })
      ∧ Stores capacity p k (fun x => g (q.arr (capacity.slot (p + x)))) q.arr arr'
      ∧ (∀ x, x < k → ret' (dst + x) = q.arr (capacity.slot (p + x)))
      ∧ ∀ x, x < dst ∨ dst + k ≤ x → ret' x = ret x := by
  induction k generalizing p dst src ret q with
  | zero =>
      exact ⟨ret, q.arr, rfl, .zero, fun x hx => absurd hx (Nat.not_lt_zero x), fun _ _ => rfl⟩
  | succ k ih =>
      have hslot : src = capacity.slot p := hsrc 0 (Nat.succ_pos k)
      have hone : Stores capacity p 1 (fun _ => g (q.arr (capacity.slot p))) q.arr
          (setSlot q.arr src (g (q.arr src))) := by
        rw [hslot]; exact .one _
      obtain ⟨ret', arr', hexec, hstores, hin, hout⟩ :=
        ih (p := p + 1) (setSlot ret dst (q.arr src)) (dst + 1) (src + 1)
          { q with arr := setSlot q.arr src (g (q.arr src)) } (by omega) fun x hx => by
            rw [Nat.add_assoc p, Nat.add_comm 1 x, ← hsrc (x + 1) (by omega)]; omega
      have hsame : ∀ x, x < k → setSlot q.arr src (g (q.arr src)) (capacity.slot (p + 1 + x))
          = q.arr (capacity.slot (p + 1 + x)) := fun x hx =>
        hone.other p (by omega) (by omega) (by omega) (by omega) (by omega)
      refine ⟨ret', arr', by rw [loadSlots, hfetch, hexec], ?_, fun x hx => ?_, fun x hx => ?_⟩
      · rw [hslot] at hstores hsame
        refine .cons (hstores.congr ?_) rfl hk
        intro x hx
        refine congrArg g ((hsame x hx).trans ?_)
        congr 2; omega
      · cases x with
        | zero => rw [Nat.add_zero, Nat.add_zero, hout dst (by omega), setSlot_self, hslot]
        | succ x =>
            rw [show dst + (x + 1) = dst + 1 + x by omega, hin x (by omega)]
            refine (hsame x (by omega)).trans ?_
            congr 2; omega
      · rw [hout x (by omega), setSlot_of_ne _ (by omega)]

/-- The two segments of a pop of `len` values, and the bump, load one window. -/
theorem popSegments_exec {fetch : Nat → QueueProg T T} {g : T → T} (hfetch : Leaves elem fetch g)
    (h : Holds capacity q lo l) (ret : Nat → T) (len : Unsigned) (hlen : len.toNat ≤ l.length) :
    let idxOut := q.out &&& capacity.mask
    let m := min_ len (capacity.val - idxOut)
    ∃ ret' arr', exec elem (do
        let ret ← loadSlots fetch ret 0 idxOut.toNat m.toNat
        let ret ← loadSlots fetch ret m.toNat 0 (len - m).toNat
        addOut len
        return (len, ret)) q = ((len, ret'), { q with out := q.out + len, arr := arr' })
      ∧ Stores capacity lo len.toNat (fun x => g (q.arr (capacity.slot (lo + x)))) q.arr arr'
      ∧ (∀ x, x < len.toNat → ret' x = q.arr (capacity.slot (lo + x)))
      ∧ ∀ x, len.toNat ≤ x → ret' x = ret x := by
  intro idxOut m
  have hbound := h.bound
  obtain ⟨hsum, hfst, hsnd⟩ : m.toNat + (len - m).toNat = len.toNat
      ∧ (∀ x, x < m.toNat → idxOut.toNat + x = capacity.slot (lo + x))
      ∧ (∀ x, x < (len - m).toNat → 0 + x = capacity.slot (lo + m.toNat + x)) := by
    simpa only [m, idxOut, h.out_eq, capacity.fifo_mask_slot] using
      capacity.segments lo len (by omega)
  obtain ⟨ret₁, arr₁, hexec₁, hstores₁, hin₁, hout₁⟩ :=
    loadSlots_exec hfetch ret 0 _ q (by omega) hfst
  obtain ⟨ret₂, arr₂, hexec₂, hstores₂, hin₂, hout₂⟩ :=
    loadSlots_exec hfetch ret₁ m.toNat _ { q with arr := arr₁ } (by omega) hsnd
  -- The second segment's slots are not among those the first has left.
  have hsame : ∀ x, m.toNat ≤ x → x < len.toNat →
      arr₁ (capacity.slot (lo + m.toNat + (x - m.toNat))) = q.arr (capacity.slot (lo + x)) := by
    intro x hx hx'
    rw [show lo + m.toNat + (x - m.toNat) = lo + x by omega]
    exact hstores₁.other lo (by omega) (by omega) (by omega) (by omega) (.inr (by omega))
  refine ⟨ret₂, arr₂, ?_, ?_, fun x hx => ?_, fun x hx => ?_⟩
  · simp only [exec_bind]
    rw [hexec₁]
    simp only
    rw [hexec₂]
    rfl
  · have hstores := hstores₁.append hstores₂ (by omega)
    rw [hsum] at hstores
    refine hstores.congr ?_
    intro x hx
    split
    · rfl
    · exact congrArg g (hsame x (by omega) hx)
  · rcases Nat.lt_or_ge x m.toNat with hfst' | hsnd'
    · have hvalue := hin₁ x hfst'
      rw [Nat.zero_add] at hvalue
      exact (hout₂ x (.inl hfst')).trans hvalue
    · have hvalue := hin₂ (x - m.toNat) (by omega)
      rw [show m.toNat + (x - m.toNat) = x by omega] at hvalue
      exact hvalue.trans (hsame x hsnd' hx)
  · exact (hout₂ x (.inr (by omega))).trans (hout₁ x (.inr (by omega)))

/-- Both bodies of the bulk pop load `min(n, length)` values and bump `out`. -/
theorem popWith_loads {fetch : Nat → QueueProg T T} {g : T → T} (hfetch : Leaves elem fetch g)
    (h : Holds capacity q lo l) (ret : Nat → T) (n : CInt) :
    ∃ len ret' arr', exec elem (popWith capacity (loadSlots fetch) ret n) q
        = ((len, ret'), { q with out := q.out + len, arr := arr' })
      ∧ len.toNat = min n.toNat l.length
      ∧ Stores capacity lo len.toNat (fun x => g (q.arr (capacity.slot (lo + x)))) q.arr arr'
      ∧ (∀ x, x < len.toNat → ret' x = q.arr (capacity.slot (lo + x)))
      ∧ ∀ x, len.toNat ≤ x → ret' x = ret x := by
  have hlen : (min_ n (q.in_ - q.out)).toNat = min n.toNat l.length := by
    rw [min_toNat, h.sub_toNat]
  simp only [popWith, readIn_bind, readOut_bind, exec_act, Fifo.perform]
  by_cases hzero : min_ n (q.in_ - q.out) = 0#32
  · simp only [hzero, if_true, Prog.pure_eq, exec_ret]
    rw [hzero] at hlen
    exact ⟨0#32, ret, q.arr, by rw [BitVec.add_zero], hlen, .zero,
      fun x hx => absurd hx (Nat.not_lt_zero x), fun _ _ => rfl⟩
  · simp only [hzero, if_false, exec_act, Fifo.perform]
    obtain ⟨ret', arr', hexec, hloads⟩ := popSegments_exec hfetch h ret (min_ n (q.in_ - q.out))
      (by omega)
    exact ⟨_, ret', arr', hexec, hlen, hloads⟩

/-- In terms of the list: the `min(n, length)` oldest values are moved to the
front of the caller's array. -/
theorem popWith_exec {fetch : Nat → QueueProg T T} {g : T → T} (hfetch : Leaves elem fetch g)
    (h : Holds capacity q lo l) (ret : Nat → T) (n : CInt) :
    let r := exec elem (popWith capacity (loadSlots fetch) ret n) q
    r.1.1.toNat = min n.toNat l.length
      ∧ (∀ i, i < r.1.1.toNat → l[i]? = some (r.1.2 i))
      ∧ (∀ i, r.1.1.toNat ≤ i → r.1.2 i = ret i)
      ∧ Holds capacity r.2 (lo + r.1.1.toNat) (l.drop r.1.1.toNat)
      ∧ FreeKept capacity lo l q r.2 := by
  obtain ⟨len, ret', arr', hexec, hlen, hstores, hin, hout⟩ := popWith_loads hfetch h ret n
  have hle : len.toNat ≤ l.length := by omega
  simp only [hexec]
  refine ⟨hlen, fun i hi => ?_, hout, h.drop hle hstores, Holds.freeKept hle hstores⟩
  rw [h.slots i (by omega), hin i hi]

variable (elem)

theorem push_exec (h : Holds capacity q lo l) (ret : Nat → T) (n : CInt) :
    let r := exec elem (SpscQueue.push elem capacity ret n) q
    r.1.toNat = min n.toNat (capacity.size - l.length)
      ∧ Holds capacity r.2 lo (l ++ firstN ret r.1.toNat) := by
  simp only [SpscQueue.push, SpscWorker.pushTrivial, SpscWorker.pushNontrivial, ite_self]
  exact pushWith_exec elem h ret n

theorem popBulk_exec (h : Holds capacity q lo l) (ret : Nat → T) (n : CInt) :
    let r := exec elem (SpscQueue.popBulk elem capacity ret n) q
    r.1.1.toNat = min n.toNat l.length
      ∧ (∀ i, i < r.1.1.toNat → l[i]? = some (r.1.2 i))
      ∧ (∀ i, r.1.1.toNat ≤ i → r.1.2 i = ret i)
      ∧ Holds capacity r.2 (lo + r.1.1.toNat) (l.drop r.1.1.toNat)
      ∧ FreeKept capacity lo l q r.2 := by
  simp only [SpscQueue.popBulk, SpscWorker.popTrivial, SpscWorker.popNontrivial]
  split
  · exact popWith_exec leaves_readSlot h ret n
  · exact popWith_exec leaves_moveSlot h ret n

end

/-! ## Alone among the threads

A call of the interleaving model that no other thread interrupts does what
`exec` says. -/

variable (elem capacity)

theorem producer_alone {s : Config T} {c : ProducerCall T} {offer : List T}
    {p : QueueProg T (Option ProducerAnswer)} (h : s.producer = .running c offer p) :
    ∃ s' offer', (ringSystem elem capacity).Steps s s'
      ∧ s'.producer = .running c offer' (.ret (exec elem p s.shared.toFifo).1)
      ∧ s'.shared.toFifo = (exec elem p s.shared.toFifo).2 ∧ s'.consumer = s.consumer := by
  induction p generalizing s offer with
  | ret x => exact ⟨s, offer, .refl, h, rfl, rfl⟩
  | act a k ih =>
      let s₁ : Config T := { s with
        shared := (s.shared.produce elem offer a).1
        producer := .running c (s.shared.produce elem offer a).2
          (k (s.shared.toFifo.perform elem a).1) }
      have hstep : (ringSystem elem capacity).step (.producer .step) s = some s₁ := by
        simp only [ringSystem, Config.step, Config.producerStep, h]
        rfl
      have hfifo : s₁.shared.toFifo = (s.shared.toFifo.perform elem a).2 := by
        cases a <;> rfl
      obtain ⟨s', offer', hsteps, hp, hq, hc⟩ := ih _ (s := s₁) rfl
      rw [hfifo] at hp hq
      exact ⟨s', offer', .head ⟨_, hstep⟩ hsteps, hp, hq, hc⟩

end LockFreeRingBuf
