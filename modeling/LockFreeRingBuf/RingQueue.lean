import LockFreeRingBuf.Lib.Counter
import LockFreeRingBuf.Lib.Resumption

/-!
# The ring queue, as its operations access memory

`__spsc_queue` keeps its elements in `arr_` between two free-running
32-bit counters, `in` (written by the producer) and `out` (written by the
consumer). Each operation is a `Resumption.Prog` over single reads and
writes of `in`, of `out` and of one slot of `arr_`, in program order; all
arithmetic on the counters is the wrapping arithmetic of `unsigned int`.
`capacity`, `fifo_.size`, `fifo_.mask`, `fifo_.buffer` and
`fifo_.endOfBuffer` are set once by the constructor and are not part of
the memory. A pointer into `arr_` is the number of slots past its start.

A spinning `while` is modelled by one pass: `none` says that the test held
and the loop goes round again from the start of the call.
-/

namespace LockFreeRingBuf

open Resumption

/-- C's `unsigned int`. -/
abbrev Unsigned := BitVec 32

/-- C's `int`, by its bits: `BitVec.toInt` reads it signed, and a conversion
to `unsigned int` keeps the bits. -/
abbrev CInt := BitVec 32

/-- A template argument that `static_assert(__CHECK_POWER_OF_2(capacity))`
admits. -/
structure Capacity where
  val : Unsigned
  check : Counter.PowerOfTwo val

namespace Capacity

/-- The number of slots of `arr_`. -/
def size (capacity : Capacity) : Nat := capacity.val.toNat

/-- The smallest capacity at which full and one element differ. -/
def two : Capacity := ⟨2#32, by decide⟩

/-- `fifo_.mask`. -/
def mask (capacity : Capacity) : Unsigned := capacity.val - 1#32

end Capacity

/-- What the code's behaviour depends on about the element type: which
worker `std::is_trivial` selects, and what `std::move` out of an object
leaves in it. -/
structure Element (T : Type) where
  isTrivial : Bool
  moved : T → T

/-! ## Memory and its accesses -/

/-- The members of `__fifo` that change, and the slots of `arr_`. -/
structure Fifo (T : Type) where
  in_ : Unsigned
  out : Unsigned
  arr : Nat → T

inductive Access (T : Type) where
  | readIn
  | readOut
  | readSlot (i : Nat)
  /-- `std::move(arr_[i])`, read by a move assignment. -/
  | moveSlot (i : Nat)
  | writeSlot (i : Nat) (t : T)
  | writeIn (v : Unsigned)
  | writeOut (v : Unsigned)

variable {T : Type}

@[reducible] def Access.Answer : Access T → Type
  | .readIn => Unsigned
  | .readOut => Unsigned
  | .readSlot _ => T
  | .moveSlot _ => T
  | .writeSlot _ _ => Unit
  | .writeIn _ => Unit
  | .writeOut _ => Unit

/-- Store `t` in slot `i`. -/
def setSlot (arr : Nat → T) (i : Nat) (t : T) : Nat → T :=
  fun j => if j = i then t else arr j

@[simp] theorem setSlot_self (arr : Nat → T) (i : Nat) (t : T) : setSlot arr i t i = t := by
  simp [setSlot]

theorem setSlot_of_ne (arr : Nat → T) {i j : Nat} (h : j ≠ i) (t : T) :
    setSlot arr i t j = arr j := by
  simp [setSlot, h]

theorem setSlot_eq_self (arr : Nat → T) (i : Nat) : setSlot arr i (arr i) = arr := by
  funext j
  by_cases h : j = i
  · rw [h, setSlot_self]
  · rw [setSlot_of_ne arr h]

/-- What one access does to the memory, and its answer. -/
def Fifo.perform (elem : Element T) : (a : Access T) → Fifo T → a.Answer × Fifo T
  | .readIn, q => (q.in_, q)
  | .readOut, q => (q.out, q)
  | .readSlot i, q => (q.arr i, q)
  | .moveSlot i, q => (q.arr i, { q with arr := setSlot q.arr i (elem.moved (q.arr i)) })
  | .writeSlot i t, q => ((), { q with arr := setSlot q.arr i t })
  | .writeIn v, q => ((), { q with in_ := v })
  | .writeOut v, q => ((), { q with out := v })

abbrev QueueProg (T : Type) := Prog (Access T) Access.Answer

def readIn : QueueProg T Unsigned := Prog.access Access.readIn
def readOut : QueueProg T Unsigned := Prog.access Access.readOut
def readSlot (i : Nat) : QueueProg T T := Prog.access (Access.readSlot i)
def moveSlot (i : Nat) : QueueProg T T := Prog.access (Access.moveSlot i)
def writeSlot (i : Nat) (t : T) : QueueProg T Unit := Prog.access (Access.writeSlot i t)
def writeIn (v : Unsigned) : QueueProg T Unit := Prog.access (Access.writeIn v)
def writeOut (v : Unsigned) : QueueProg T Unit := Prog.access (Access.writeOut v)

/-- `fifo->in += n`. -/
def addIn (n : Unsigned) : QueueProg T Unit := do
  let in_ ← readIn
  writeIn (in_ + n)

/-- `fifo->out += n`. -/
def addOut (n : Unsigned) : QueueProg T Unit := do
  let out ← readOut
  writeOut (out + n)

section

variable {α : Type}

@[simp] theorem readIn_bind (f : Unsigned → QueueProg T α) :
    (readIn >>= f) = .act .readIn f := rfl

@[simp] theorem readOut_bind (f : Unsigned → QueueProg T α) :
    (readOut >>= f) = .act .readOut f := rfl

@[simp] theorem readSlot_bind (i : Nat) (f : T → QueueProg T α) :
    (readSlot i >>= f) = .act (.readSlot i) f := rfl

@[simp] theorem moveSlot_bind (i : Nat) (f : T → QueueProg T α) :
    (moveSlot i >>= f) = .act (.moveSlot i) f := rfl

@[simp] theorem writeSlot_bind (i : Nat) (t : T) (f : Unit → QueueProg T α) :
    (writeSlot i t >>= f) = .act (.writeSlot i t) f := rfl

@[simp] theorem addIn_bind (n : Unsigned) (f : Unit → QueueProg T α) :
    (addIn n >>= f) = .act .readIn fun in_ => .act (.writeIn (in_ + n)) f := rfl

@[simp] theorem addOut_bind (n : Unsigned) (f : Unit → QueueProg T α) :
    (addOut n >>= f) = .act .readOut fun out => .act (.writeOut (out + n)) f := rfl

end

/-- `_min`. -/
def min_ (a b : Unsigned) : Unsigned := if a < b then a else b

theorem min_toNat (a b : Unsigned) : (min_ a b).toNat = min a.toNat b.toNat := by
  simp only [min_, BitVec.lt_def]
  split <;> omega

/-! ## Single-element operations -/

namespace SpscQueue

variable (capacity : Capacity)

def readAvailable : QueueProg T CInt := do
  let in_ ← readIn
  let out ← readOut
  return in_ - out

/-- The element argument is copied or moved into the slot: `const T&` and
`T&&` differ only in what is left of the caller's object. -/
def tryPush (t : T) : QueueProg T Bool := do
  let in_ ← readIn
  let out ← readOut
  if capacity.val - in_ + out = 0#32 then
    return false
  else
    let in_ ← readIn
    writeSlot (in_ &&& (capacity.val - 1#32)).toNat t
    addIn 1#32
    return true

/-- One pass of `while (capacity - fifo_.in + fifo_.out == 0)`, then the rest
of the function. -/
def whileFull {α : Type} (rest : QueueProg T α) : QueueProg T (Option α) := do
  let in_ ← readIn
  let out ← readOut
  if capacity.val - in_ + out = 0#32 then
    return none
  else
    let x ← rest
    return some x

def waitPush (t : T) : QueueProg T (Option Unit) :=
  whileFull capacity do
    let in_ ← readIn
    writeSlot (in_ &&& (capacity.val - 1#32)).toNat t
    addIn 1#32

/-- `pop(T& t)`: returns the verdict and what is left in `t`. -/
def pop (t : T) : QueueProg T (Bool × T) := do
  let in_ ← readIn
  let out ← readOut
  if in_ - out = 0#32 then
    return (false, t)
  else
    let out ← readOut
    let t ← moveSlot (out &&& (capacity.val - 1#32)).toNat
    addOut 1#32
    return (true, t)

/-- The pointer to the next free slot; `none` is `nullptr`. -/
def tryReserve1 : QueueProg T (Option Nat) := do
  let in_ ← readIn
  let out ← readOut
  if capacity.val - in_ + out = 0#32 then
    return none
  else
    let in_ ← readIn
    return some (in_ &&& capacity.mask).toNat

def reserve1 : QueueProg T (Option Nat) :=
  whileFull capacity do
    let in_ ← readIn
    return (in_ &&& capacity.mask).toNat

def finish1 : QueueProg T Unit := addIn 1#32

/-- `peek(int* n, max)`: returns `*n` and the pointer. -/
def peek (max : Unsigned) : QueueProg T (CInt × Nat) := do
  let in_ ← readIn
  let out ← readOut
  let n := min_ max (in_ - out)
  let out ← readOut
  return (n, (out &&& capacity.mask).toNat)

def consume (n : Unsigned) : QueueProg T Unit := addOut n

end SpscQueue

/-! ## Bulk operations

`__spsc_worker<T, true>` moves elements with `memcpy`, `__spsc_worker<T,
false>` with two `for` loops of assignments; a slot is one access either
way. The caller's array is a function of the index. -/

/-- `arr[dst + i] = ret[src + i]` for `i = 0, ..., n - 1`. -/
def storeSlots (ret : Nat → T) : (dst src n : Nat) → QueueProg T Unit
  | _, _, 0 => return ()
  | dst, src, n + 1 => do
    writeSlot dst (ret src)
    storeSlots ret (dst + 1) (src + 1) n

/-- `ret[dst + i] = arr[src + i]` for `i = 0, ..., n - 1`, where `fetch` reads
one slot; returns the caller's array. -/
def loadSlots (fetch : Nat → QueueProg T T) :
    (ret : Nat → T) → (dst src n : Nat) → QueueProg T (Nat → T)
  | ret, _, _, 0 => return ret
  | ret, dst, src, n + 1 => do
    let t ← fetch src
    loadSlots fetch (setSlot ret dst t) (dst + 1) (src + 1) n

/-- The body shared by the four `push` overloads: `copy dst src n` fills `n`
slots from `dst` on. -/
def pushWith (capacity : Capacity) (copy : (dst src n : Nat) → QueueProg T Unit)
    (n : CInt) : QueueProg T CInt := do
  let in_ ← readIn
  let out ← readOut
  let len := min_ n (capacity.val - in_ + out)
  if len = 0#32 then
    return 0#32
  else
    let in_ ← readIn
    let idxIn := in_ &&& capacity.mask
    let l := min_ len (capacity.val - idxIn)
    copy idxIn.toNat 0 l.toNat
    copy 0 l.toNat (len - l).toNat
    addIn len
    return len

/-- The body shared by the two `pop` specialisations: `copy ret dst src n`
fills the caller's array from `dst` on. -/
def popWith (capacity : Capacity)
    (copy : (ret : Nat → T) → (dst src n : Nat) → QueueProg T (Nat → T))
    (ret : Nat → T) (n : CInt) : QueueProg T (CInt × (Nat → T)) := do
  let in_ ← readIn
  let out ← readOut
  let len := min_ n (in_ - out)
  if len = 0#32 then
    return (0#32, ret)
  else
    let out ← readOut
    let idxOut := out &&& capacity.mask
    let l := min_ len (capacity.val - idxOut)
    let ret ← copy ret 0 idxOut.toNat l.toNat
    let ret ← copy ret l.toNat 0 (len - l).toNat
    addOut len
    return (len, ret)

namespace SpscWorker

variable (capacity : Capacity)

/-- `__spsc_worker<T, true>::push`. -/
def pushTrivial (ret : Nat → T) (n : CInt) : QueueProg T CInt :=
  pushWith capacity (storeSlots ret) n

/-- `__spsc_worker<T, true>::pop`. -/
def popTrivial (ret : Nat → T) (n : CInt) : QueueProg T (CInt × (Nat → T)) :=
  popWith capacity (loadSlots readSlot) ret n

/-- `__spsc_worker<T, false>::push`. -/
def pushNontrivial (ret : Nat → T) (n : CInt) : QueueProg T CInt :=
  pushWith capacity (storeSlots ret) n

/-- `__spsc_worker<T, false>::pop`. -/
def popNontrivial (ret : Nat → T) (n : CInt) : QueueProg T (CInt × (Nat → T)) :=
  popWith capacity (loadSlots moveSlot) ret n

end SpscWorker

namespace SpscQueue

variable (elem : Element T) (capacity : Capacity)

/-- The bulk `push`, by the worker that `is_trivial<T>` selects. -/
def push (ret : Nat → T) (n : CInt) : QueueProg T CInt :=
  if elem.isTrivial then SpscWorker.pushTrivial capacity ret n
  else SpscWorker.pushNontrivial capacity ret n

/-- The bulk `pop`, by the worker that `is_trivial<T>` selects. -/
def popBulk (ret : Nat → T) (n : CInt) : QueueProg T (CInt × (Nat → T)) :=
  if elem.isTrivial then SpscWorker.popTrivial capacity ret n
  else SpscWorker.popNontrivial capacity ret n

/-- The caller's walk over peeked slots: `++p`, and back to `begin_buf()` when
`p` reaches `end_buf()`. -/
def walk (p : Nat) : Nat := if p + 1 = capacity.size then 0 else p + 1

end SpscQueue

/-! ## Slots of positions -/

namespace Capacity

variable (capacity : Capacity)

/-- The slot that holds the element at an unbounded position. -/
def slot (p : Nat) : Nat := p % capacity.size

theorem size_pos : 0 < capacity.size := capacity.check.pos

theorem size_le : capacity.size ≤ 2 ^ 31 := by
  obtain ⟨k, hk, hc⟩ := capacity.check.exists_pow
  rw [size, hc]
  exact Nat.pow_le_pow_right (by omega) (by omega)

theorem slot_lt (p : Nat) : capacity.slot p < capacity.size :=
  Nat.mod_lt p capacity.size_pos

/-- Every mask in the code addresses the slot of the position the counter
stands for. -/
@[simp] theorem mask_slot (p : Nat) :
    (BitVec.ofNat 32 p &&& (capacity.val - 1#32)).toNat = capacity.slot p :=
  capacity.check.and_mask_ofNat p

@[simp] theorem fifo_mask_slot (p : Nat) :
    (BitVec.ofNat 32 p &&& capacity.mask).toNat = capacity.slot p :=
  capacity.check.and_mask_ofNat p

theorem slot_inj (lo : Nat) {i j : Nat} (hi : lo ≤ i) (hj : lo ≤ j) (hic : i < lo + capacity.size)
    (hjc : j < lo + capacity.size) (h : capacity.slot i = capacity.slot j) : i = j :=
  Counter.mod_inj_of_lt hi hj hic hjc h

/-- The two segments of a bulk transfer of `len` elements from position `p`
on: `l` up to the array end, the rest from the start of the array. -/
theorem segments (p : Nat) (len : Unsigned) (hlen : len.toNat ≤ capacity.size) :
    let l := min_ len (capacity.val - (BitVec.ofNat 32 p &&& capacity.mask))
    l.toNat + (len - l).toNat = len.toNat
      ∧ (∀ x, x < l.toNat → capacity.slot p + x = capacity.slot (p + x))
      ∧ (∀ x, x < (len - l).toNat → 0 + x = capacity.slot (p + l.toNat + x)) := by
  intro l
  have hslot := capacity.slot_lt p
  have hidx := capacity.fifo_mask_slot p
  have hsub : (capacity.val - (BitVec.ofNat 32 p &&& capacity.mask)).toNat
      = capacity.size - capacity.slot p := by
    rw [BitVec.toNat_sub_of_le (by rw [BitVec.le_def, hidx]; exact Nat.le_of_lt hslot), hidx, size]
  have hl : l.toNat = min len.toNat (capacity.size - capacity.slot p) := by
    rw [min_toNat, hsub]
  have hrest : (len - l).toNat = len.toNat - l.toNat :=
    BitVec.toNat_sub_of_le (by rw [BitVec.le_def, hl]; exact Nat.min_le_left _ _)
  refine ⟨by omega, fun x hx => ?_, fun x hx => ?_⟩
  · exact (Counter.mod_add_of_lt (by unfold slot size at *; omega)).symm
  · have hwrap : l.toNat = capacity.size - capacity.slot p := by omega
    rw [hwrap, Nat.zero_add]
    exact (Counter.mod_add_of_wrap capacity.size_pos (by omega)).symm

theorem walk_slot (p : Nat) :
    SpscQueue.walk capacity (capacity.slot p) = capacity.slot (p + 1) :=
  Counter.mod_succ capacity.size_pos

end Capacity

end LockFreeRingBuf
