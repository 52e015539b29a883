import LockFreeRingBuf.RingPeek

/-!
# Bulk calls and the caller's array

In `RingQueue` the array a bulk call is given is a value. Here it is memory
that the call reads or writes element by element, beside the ring's: the
bodies of the two workers are written out once more over accesses of both,
and shown to do to the ring what they do there. What they access of the
caller's array is then a list of indices, to be compared with the length
the caller gave, an `int` that nothing checks before `_min` reads it as
`unsigned int`.
-/

namespace LockFreeRingBuf

open Resumption

variable {T : Type}

/-! ## Memory and its accesses -/

inductive WorkerAccess (T : Type) where
  | fifo (a : Access T)
  | readRet (i : Nat)
  /-- `std::move(ret[i])`, read by a move assignment. -/
  | moveRet (i : Nat)
  | writeRet (i : Nat) (t : T)

@[reducible] def WorkerAccess.Answer : WorkerAccess T → Type
  | .fifo a => a.Answer
  | .readRet _ => T
  | .moveRet _ => T
  | .writeRet _ _ => Unit

/-- The ring, and what the pointer `ret` points to. -/
@[ext] structure WorkerMemory (T : Type) where
  fifo : Fifo T
  ret : Nat → T

def WorkerMemory.perform (elem : Element T) :
    (a : WorkerAccess T) → WorkerMemory T → a.Answer × WorkerMemory T
  | .fifo a, m => ((m.fifo.perform elem a).1, { m with fifo := (m.fifo.perform elem a).2 })
  | .readRet i, m => (m.ret i, m)
  | .moveRet i, m => (m.ret i, { m with ret := setSlot m.ret i (elem.moved (m.ret i)) })
  | .writeRet i t, m => ((), { m with ret := setSlot m.ret i t })

abbrev WorkerProg (T : Type) := Prog (WorkerAccess T) WorkerAccess.Answer

/-- Accesses of the ring alone. -/
def onFifo {α : Type} (p : QueueProg T α) : WorkerProg T α := p.embed .fifo fun _ r => r

def readRet (i : Nat) : WorkerProg T T := Prog.access (WorkerAccess.readRet i)
def moveRet (i : Nat) : WorkerProg T T := Prog.access (WorkerAccess.moveRet i)
def writeRet (i : Nat) (t : T) : WorkerProg T Unit := Prog.access (WorkerAccess.writeRet i t)

/-! ## The workers -/

/-- `arr[dst + i] = ret[src + i]` for `i = 0, ..., n - 1`, where `fetch` reads
one element of the caller's array. -/
def storeRet (fetch : Nat → WorkerProg T T) : (dst src n : Nat) → WorkerProg T Unit
  | _, _, 0 => return ()
  | dst, src, n + 1 => do
    let t ← fetch src
    onFifo (writeSlot dst t)
    storeRet fetch (dst + 1) (src + 1) n

/-- `ret[dst + i] = arr[src + i]` for `i = 0, ..., n - 1`, where `fetch` reads
one slot. -/
def loadRet (fetch : Nat → QueueProg T T) : (dst src n : Nat) → WorkerProg T Unit
  | _, _, 0 => return ()
  | dst, src, n + 1 => do
    let t ← onFifo (fetch src)
    writeRet dst t
    loadRet fetch (dst + 1) (src + 1) n

/-- The body shared by the `push` overloads: `copy dst src n` fills `n` slots
from `dst` on with the caller's elements from `src` on. -/
def pushBody (capacity : Capacity) (copy : (dst src n : Nat) → WorkerProg T Unit)
    (n : CInt) : WorkerProg T CInt := do
  let in_ ← onFifo readIn
  let out ← onFifo readOut
  let len := min_ n (capacity.val - in_ + out)
  if len = 0#32 then
    return 0#32
  else
    let in_ ← onFifo readIn
    let idxIn := in_ &&& capacity.mask
    let l := min_ len (capacity.val - idxIn)
    copy idxIn.toNat 0 l.toNat
    copy 0 l.toNat (len - l).toNat
    onFifo (addIn len)
    return len

/-- The body shared by the `pop` specialisations: `copy dst src n` fills the
caller's array from `dst` on with `n` slots from `src` on. -/
def popBody (capacity : Capacity) (copy : (dst src n : Nat) → WorkerProg T Unit)
    (n : CInt) : WorkerProg T CInt := do
  let in_ ← onFifo readIn
  let out ← onFifo readOut
  let len := min_ n (in_ - out)
  if len = 0#32 then
    return 0#32
  else
    let out ← onFifo readOut
    let idxOut := out &&& capacity.mask
    let l := min_ len (capacity.val - idxOut)
    copy 0 idxOut.toNat l.toNat
    copy l.toNat 0 (len - l).toNat
    onFifo (addOut len)
    return len

/-- The bulk calls of the two workers: `push` from `const T*` and from `T*`,
and `pop`. -/
inductive BulkCall where
  | pushTrivialConst
  | pushTrivial
  | popTrivial
  | pushNontrivialConst
  | pushNontrivial
  | popNontrivial

/-- `memcpy` reads the elements as they are, and so does the assignment from
`const T*`; the loop over `T*` moves. -/
def BulkCall.body (capacity : Capacity) : BulkCall → CInt → WorkerProg T CInt
  | .pushTrivialConst => pushBody capacity (storeRet readRet)
  | .pushTrivial => pushBody capacity (storeRet readRet)
  | .popTrivial => popBody capacity (loadRet readSlot)
  | .pushNontrivialConst => pushBody capacity (storeRet readRet)
  | .pushNontrivial => pushBody capacity (storeRet moveRet)
  | .popNontrivial => popBody capacity (loadRet moveSlot)

/-- How many elements there are to transfer, or slots to transfer them to. -/
def BulkCall.room (capacity : Capacity) (q : Fifo T) : BulkCall → Nat
  | .popTrivial | .popNontrivial => (q.in_ - q.out).toNat
  | _ => capacity.size - (q.in_ - q.out).toNat

/-! ## Uninterrupted execution -/

def execWorker {α : Type} (elem : Element T) (p : WorkerProg T α) (m : WorkerMemory T) :
    α × WorkerMemory T :=
  p.run (WorkerMemory.perform elem) m

/-- The index of the caller's array that an access touches. -/
def WorkerAccess.retIndex : WorkerAccess T → Option Nat
  | .fifo _ => none
  | .readRet i => some i
  | .moveRet i => some i
  | .writeRet i _ => some i

/-- The slot of the ring that an access touches. -/
def WorkerAccess.slot : WorkerAccess T → Option Nat
  | .fifo a => a.slot
  | _ => none

/-- What an uninterrupted run touches, in order, as `index` reads it off an
access. -/
def touched {α : Type} (index : WorkerAccess T → Option Nat) (elem : Element T)
    (p : WorkerProg T α) (m : WorkerMemory T) : List Nat :=
  (p.trace (WorkerMemory.perform elem) m).filterMap index

variable {elem : Element T} {capacity : Capacity}

theorem execWorker_bind {α β : Type} (p : WorkerProg T α) (f : α → WorkerProg T β)
    (m : WorkerMemory T) :
    execWorker elem (p >>= f) m
      = execWorker elem (f (execWorker elem p m).1) (execWorker elem p m).2 :=
  Prog.run_bind p f m

theorem touched_bind {α β : Type} (index : WorkerAccess T → Option Nat) (p : WorkerProg T α)
    (f : α → WorkerProg T β) (m : WorkerMemory T) :
    touched index elem (p >>= f) m = touched index elem p m
      ++ touched index elem (f (execWorker elem p m).1) (execWorker elem p m).2 := by
  simp only [touched, Prog.trace_bind, List.filterMap_append]
  rfl

section

variable {α : Type} (p : QueueProg T α) (m : WorkerMemory T)

@[simp] theorem execWorker_onFifo :
    execWorker elem (onFifo p) m
      = ((exec elem p m.fifo).1, { m with fifo := (exec elem p m.fifo).2 }) :=
  Prog.run_embed (fun q => WorkerMemory.mk q m.ret) (fun _ _ => ⟨rfl, rfl⟩) p m.fifo

theorem touched_onFifo (index : WorkerAccess T → Option Nat) :
    touched index elem (onFifo p) m
      = (accesses elem p m.fifo).filterMap fun a => index (.fifo a) := by
  have htrace : (onFifo p).trace (WorkerMemory.perform elem) m
      = (accesses elem p m.fifo).map WorkerAccess.fifo :=
    Prog.trace_embed (fun q => WorkerMemory.mk q m.ret) (fun _ _ => ⟨rfl, rfl⟩) p m.fifo
  rw [touched, htrace, List.filterMap_map]
  rfl

@[simp] theorem retTouched_onFifo :
    touched WorkerAccess.retIndex elem (onFifo p) m = [] := by
  rw [touched_onFifo]
  exact List.filterMap_eq_nil_iff.mpr fun _ _ => rfl

@[simp] theorem slotTouched_onFifo :
    touched WorkerAccess.slot elem (onFifo p) m = visited elem p m.fifo :=
  touched_onFifo p m WorkerAccess.slot

end

/-! ## The copies -/

/-- How `storeRet` reads one element: `g` is what it leaves there. -/
structure Fetches (elem : Element T) (fetch : Nat → WorkerProg T T) (g : T → T) : Prop where
  exec : ∀ i m, execWorker elem (fetch i) m
    = (m.ret i, { m with ret := setSlot m.ret i (g (m.ret i)) })
  ret : ∀ i m, touched WorkerAccess.retIndex elem (fetch i) m = [i]
  slots : ∀ i m, touched WorkerAccess.slot elem (fetch i) m = []

theorem fetches_readRet : Fetches elem readRet id where
  exec i m := by
    rw [id, setSlot_eq_self]
    rfl
  ret _ _ := rfl
  slots _ _ := rfl

theorem fetches_moveRet : Fetches elem moveRet elem.moved := ⟨fun _ _ => rfl, fun _ _ => rfl,
  fun _ _ => rfl⟩

variable {fetch : Nat → WorkerProg T T} {g : T → T}

/-- The copy out of the caller's array fills the ring as `storeSlots` does, and
leaves the elements it has not come to. -/
theorem storeRet_exec (hfetch : Fetches elem fetch g) (ret : Nat → T) (dst src n : Nat)
    (q : Fifo T) (ret' : Nat → T) (hsame : ∀ x, src ≤ x → ret' x = ret x) :
    ∃ ret'', execWorker elem (storeRet fetch dst src n) ⟨q, ret'⟩
        = ((), ⟨(exec elem (storeSlots ret dst src n) q).2, ret''⟩)
      ∧ ∀ x, src + n ≤ x → ret'' x = ret x := by
  induction n generalizing dst src q ret' with
  | zero => exact ⟨ret', rfl, hsame⟩
  | succ n ih =>
      simp only [storeRet, execWorker_bind, hfetch.exec, execWorker_onFifo]
      rw [hsame src (Nat.le_refl _)]
      obtain ⟨ret'', hexec, hrest⟩ := ih (dst + 1) (src + 1)
        { q with arr := setSlot q.arr dst (ret src) } (setSlot ret' src (g (ret src))) (by
          intro x hx
          rw [setSlot_of_ne _ (by omega)]
          exact hsame x (by omega))
      exact ⟨ret'', hexec, fun x hx => hrest x (by omega)⟩

theorem storeRet_touches (hfetch : Fetches elem fetch g) (dst src n : Nat) (m : WorkerMemory T) :
    touched WorkerAccess.retIndex elem (storeRet fetch dst src n) m = List.range' src n
      ∧ touched WorkerAccess.slot elem (storeRet fetch dst src n) m = List.range' dst n := by
  induction n generalizing dst src m with
  | zero => exact ⟨rfl, rfl⟩
  | succ n ih =>
      simp only [storeRet, touched_bind, hfetch.ret, hfetch.slots, hfetch.exec,
        retTouched_onFifo, slotTouched_onFifo, execWorker_onFifo]
      rw [(ih _ _ _).1, (ih _ _ _).2]
      exact ⟨rfl, rfl⟩

theorem loadRet_exec (fetch : Nat → QueueProg T T) (dst src n : Nat) (q : Fifo T)
    (ret : Nat → T) :
    execWorker elem (loadRet fetch dst src n) ⟨q, ret⟩
      = ((), ⟨(exec elem (loadSlots fetch ret dst src n) q).2,
          (exec elem (loadSlots fetch ret dst src n) q).1⟩) := by
  induction n generalizing dst src q ret with
  | zero => rfl
  | succ n ih =>
      simp only [loadRet, loadSlots, execWorker_bind, execWorker_onFifo, exec_bind]
      exact ih _ _ _ _

theorem loadRet_touches {fetch : Nat → QueueProg T T}
    (hfetch : ∀ i q, visited elem (fetch i) q = [i]) (dst src n : Nat) (m : WorkerMemory T) :
    touched WorkerAccess.retIndex elem (loadRet fetch dst src n) m = List.range' dst n
      ∧ touched WorkerAccess.slot elem (loadRet fetch dst src n) m = List.range' src n := by
  induction n generalizing dst src m with
  | zero => exact ⟨rfl, rfl⟩
  | succ n ih =>
      simp only [loadRet, touched_bind, retTouched_onFifo, slotTouched_onFifo, hfetch,
        execWorker_onFifo]
      rw [(ih _ _ _).1, (ih _ _ _).2]
      exact ⟨rfl, rfl⟩

/-! ## The bodies -/

@[simp] theorem exec_readIn (q : Fifo T) : exec elem readIn q = (q.in_, q) := rfl

@[simp] theorem exec_readOut (q : Fifo T) : exec elem readOut q = (q.out, q) := rfl

@[simp] theorem visited_readIn (q : Fifo T) : visited elem readIn q = [] := rfl

@[simp] theorem visited_readOut (q : Fifo T) : visited elem readOut q = [] := rfl

@[simp] theorem visited_addIn (n : Unsigned) (q : Fifo T) : visited elem (addIn n) q = [] := rfl

@[simp] theorem visited_addOut (n : Unsigned) (q : Fifo T) : visited elem (addOut n) q = [] := rfl

@[simp] theorem execWorker_ret {α : Type} (x : α) (m : WorkerMemory T) :
    execWorker elem (.ret x) m = (x, m) := rfl

@[simp] theorem touched_ret {α : Type} (index : WorkerAccess T → Option Nat) (x : α)
    (m : WorkerMemory T) : touched index elem (.ret x) m = [] := rfl

/-- The pushes do to the ring what `pushWith` does, and return what it returns. -/
theorem pushBody_exec (capacity : Capacity) (hfetch : Fetches elem fetch g) (n : CInt)
    (q : Fifo T) (ret : Nat → T) :
    let r := exec elem (pushWith capacity (storeSlots ret) n) q
    let r' := execWorker elem (pushBody capacity (storeRet fetch) n) ⟨q, ret⟩
    r'.1 = r.1 ∧ r'.2.fifo = r.2 ∧ (r.1 = 0#32 → r'.2.ret = ret) := by
  simp only [pushBody, pushWith, execWorker_bind, execWorker_onFifo, exec_readIn, exec_readOut,
    readIn_bind, readOut_bind, exec_act, Fifo.perform]
  by_cases hzero : min_ n (capacity.val - q.in_ + q.out) = 0#32
  · simp only [hzero, if_true, Prog.pure_eq, execWorker_ret, exec_ret]
    exact ⟨trivial, trivial, fun _ => trivial⟩
  · simp only [hzero, if_false, execWorker_bind, execWorker_onFifo, exec_readIn, exec_act,
      Fifo.perform, exec_bind]
    generalize min_ n (capacity.val - q.in_ + q.out) = len at hzero ⊢
    generalize min_ len (capacity.val - (q.in_ &&& capacity.mask)) = l
    obtain ⟨ret₁, hexec₁, hrest⟩ := storeRet_exec hfetch ret (q.in_ &&& capacity.mask).toNat 0
      l.toNat q ret fun _ _ => rfl
    obtain ⟨ret₂, hexec₂, -⟩ := storeRet_exec hfetch ret 0 l.toNat (len - l).toNat
      (exec elem (storeSlots ret (q.in_ &&& capacity.mask).toNat 0 l.toNat) q).2 ret₁
      fun x hx => hrest x (by omega)
    simp only [hexec₁, hexec₂]
    exact ⟨rfl, rfl, fun h => absurd h hzero⟩

/-- The pops do to the ring and to the caller's array what `popWith` does. -/
theorem popBody_exec (elem : Element T) (capacity : Capacity) (fetch : Nat → QueueProg T T) (n : CInt)
    (q : Fifo T) (ret : Nat → T) :
    let r := exec elem (popWith capacity (loadSlots fetch) ret n) q
    execWorker elem (popBody capacity (loadRet fetch) n) ⟨q, ret⟩ = (r.1.1, ⟨r.2, r.1.2⟩) := by
  simp only [popBody, popWith, execWorker_bind, execWorker_onFifo, exec_readIn, exec_readOut,
    readIn_bind, readOut_bind, exec_act, Fifo.perform]
  by_cases hzero : min_ n (q.in_ - q.out) = 0#32
  · simp only [hzero, if_true, Prog.pure_eq, execWorker_ret, exec_ret]
  · simp only [hzero, if_false, execWorker_bind, execWorker_onFifo, exec_readOut, exec_act,
      Fifo.perform, exec_bind, loadRet_exec]
    rfl

/-- A call that transfers `len` elements and no more: it touches the first
`len` of the caller's array and slots inside the ring, and moves one counter
by `len`. -/
structure Transfers (elem : Element T) (capacity : Capacity) (p : WorkerProg T CInt)
    (m : WorkerMemory T) (len : Unsigned) : Prop where
  result : (execWorker elem p m).1 = len
  ret : touched WorkerAccess.retIndex elem p m = List.range len.toNat
  slots : ∀ i ∈ touched WorkerAccess.slot elem p m, i < capacity.size
  counters : (execWorker elem p m).2.fifo.in_ = m.fifo.in_ + len
      ∧ (execWorker elem p m).2.fifo.out = m.fifo.out
    ∨ (execWorker elem p m).2.fifo.in_ = m.fifo.in_
      ∧ (execWorker elem p m).2.fifo.out = m.fifo.out + len
  nothing : len = 0#32 → (execWorker elem p m).2 = m

/-- The two segments of a transfer cover the caller's array from its start, and
stay inside the ring. -/
theorem segments_touch (capacity : Capacity) (idx len : Unsigned)
    (hlen : len.toNat ≤ capacity.size) :
    let l := min_ len (capacity.val - (idx &&& capacity.mask))
    List.range' 0 l.toNat ++ List.range' l.toNat (len - l).toNat = List.range len.toNat
      ∧ ∀ i ∈ List.range' (idx &&& capacity.mask).toNat l.toNat ++ List.range' 0 (len - l).toNat,
        i < capacity.size := by
  intro l
  have hslot := capacity.fifo_mask_slot idx.toNat
  obtain ⟨hsum, hfst, hsnd⟩ : l.toNat + (len - l).toNat = len.toNat
      ∧ (∀ x, x < l.toNat → capacity.slot idx.toNat + x = capacity.slot (idx.toNat + x))
      ∧ (∀ x, x < (len - l).toNat → 0 + x = capacity.slot (idx.toNat + l.toNat + x)) := by
    simpa only [l, BitVec.ofNat_toNat, BitVec.setWidth_eq] using
      capacity.segments idx.toNat len hlen
  rw [BitVec.ofNat_toNat, BitVec.setWidth_eq] at hslot
  refine ⟨?_, fun i hi => ?_⟩
  · have happend := List.range'_append_1 (s := 0) (m := l.toNat) (n := (len - l).toNat)
    rw [Nat.zero_add, hsum] at happend
    rw [happend, List.range_eq_range']
  · rw [List.mem_append, List.mem_range'_1, List.mem_range'_1] at hi
    rcases hi with ⟨hlo, hhi⟩ | ⟨-, hhi⟩
    · have heq := hfst (i - (idx &&& capacity.mask).toNat) (by omega)
      rw [← hslot, Nat.add_sub_cancel' hlo] at heq
      rw [heq]
      exact capacity.slot_lt _
    · have heq := hsnd i (by omega)
      rw [Nat.zero_add] at heq
      rw [heq]
      exact capacity.slot_lt _

variable {q : Fifo T}

theorem pushBody_touches (capacity : Capacity) (hfetch : Fetches elem fetch g) (n : CInt)
    (ret : Nat → T) (hlen : (min_ n (capacity.val - q.in_ + q.out)).toNat ≤ capacity.size) :
    let p := pushBody capacity (storeRet fetch) n
    touched WorkerAccess.retIndex elem p ⟨q, ret⟩
        = List.range (min_ n (capacity.val - q.in_ + q.out)).toNat
      ∧ ∀ i ∈ touched WorkerAccess.slot elem p ⟨q, ret⟩, i < capacity.size := by
  simp only [pushBody, touched_bind, retTouched_onFifo, slotTouched_onFifo, execWorker_onFifo,
    exec_readIn, exec_readOut, visited_readIn, visited_readOut, List.nil_append]
  generalize min_ n (capacity.val - q.in_ + q.out) = len at hlen ⊢
  by_cases hzero : len = 0#32
  · simp only [hzero, if_true, Prog.pure_eq, touched_ret]
    exact ⟨rfl, fun i hi => absurd hi List.not_mem_nil⟩
  · obtain ⟨hret, hslots⟩ := segments_touch capacity q.in_ len hlen
    simp only [hzero, if_false, touched_bind, retTouched_onFifo, slotTouched_onFifo,
      execWorker_onFifo, exec_readIn, visited_readIn, List.nil_append,
      (storeRet_touches hfetch _ _ _ _).1, (storeRet_touches hfetch _ _ _ _).2, visited_addIn,
      Prog.pure_eq, touched_ret, List.append_nil]
    exact ⟨hret, hslots⟩

theorem popBody_touches (capacity : Capacity) {fetch : Nat → QueueProg T T}
    (hfetch : ∀ i q, visited elem (fetch i) q = [i]) (n : CInt) (ret : Nat → T)
    (hlen : (min_ n (q.in_ - q.out)).toNat ≤ capacity.size) :
    let p := popBody capacity (loadRet fetch) n
    touched WorkerAccess.retIndex elem p ⟨q, ret⟩ = List.range (min_ n (q.in_ - q.out)).toNat
      ∧ ∀ i ∈ touched WorkerAccess.slot elem p ⟨q, ret⟩, i < capacity.size := by
  simp only [popBody, touched_bind, retTouched_onFifo, slotTouched_onFifo, execWorker_onFifo,
    exec_readIn, exec_readOut, visited_readIn, visited_readOut, List.nil_append]
  generalize min_ n (q.in_ - q.out) = len at hlen ⊢
  by_cases hzero : len = 0#32
  · simp only [hzero, if_true, Prog.pure_eq, touched_ret]
    exact ⟨rfl, fun i hi => absurd hi List.not_mem_nil⟩
  · obtain ⟨hret, hslots⟩ := segments_touch capacity q.out len hlen
    simp only [hzero, if_false, touched_bind, retTouched_onFifo, slotTouched_onFifo,
      execWorker_onFifo, exec_readOut, visited_readOut, List.nil_append,
      (loadRet_touches hfetch _ _ _ _).1, (loadRet_touches hfetch _ _ _ _).2, visited_addOut,
      Prog.pure_eq, touched_ret, List.append_nil]
    exact ⟨hret, hslots⟩

theorem pushBody_transfers (h : q.Bounded capacity) (hfetch : Fetches elem fetch g) (n : CInt)
    (ret : Nat → T) :
    ∃ len, Transfers elem capacity (pushBody capacity (storeRet fetch) n) ⟨q, ret⟩ len
      ∧ len.toNat = min n.toNat (capacity.size - (q.in_ - q.out).toNat) := by
  obtain ⟨len, arr', hexec, hlen, hstores⟩ := pushWith_stores elem h.holds ret n
  obtain ⟨hresult, hfifo, hret⟩ := pushBody_exec capacity hfetch n q ret
  simp only [hexec] at hresult hfifo hret
  have heq : min_ n (capacity.val - q.in_ + q.out) = len := by
    rw [← BitVec.toNat_inj, min_toNat, h.holds.free_toNat, hlen]
  rw [Fifo.window_length] at hlen
  obtain ⟨hindices, hslots⟩ := pushBody_touches (q := q) capacity hfetch n ret
    (by rw [heq]; omega)
  rw [heq] at hindices
  refine ⟨len, ⟨hresult, hindices, hslots, .inl ?_, fun hzero => ?_⟩, hlen⟩
  · rw [hfifo]
    exact ⟨rfl, rfl⟩
  · rw [hzero] at hstores hfifo
    rw [hstores.unique .zero, BitVec.add_zero] at hfifo
    exact WorkerMemory.ext hfifo (hret hzero)

theorem popBody_transfers (h : q.Bounded capacity) {fetch : Nat → QueueProg T T}
    (hfetch : ∀ i q, visited elem (fetch i) q = [i]) (hleaves : Leaves elem fetch g) (n : CInt)
    (ret : Nat → T) :
    ∃ len, Transfers elem capacity (popBody capacity (loadRet fetch) n) ⟨q, ret⟩ len
      ∧ len.toNat = min n.toNat (q.in_ - q.out).toNat := by
  obtain ⟨len, ret', arr', hexec, hlen, hstores, -, hout⟩ := popWith_loads hleaves h.holds ret n
  have hbody := popBody_exec elem capacity fetch n q ret
  simp only [hexec] at hbody
  have heq : min_ n (q.in_ - q.out) = len := by
    rw [← BitVec.toNat_inj, min_toNat, h.holds.sub_toNat, hlen]
  rw [Fifo.window_length] at hlen
  have hbound : (q.in_ - q.out).toNat ≤ capacity.size := h
  obtain ⟨hindices, hslots⟩ := popBody_touches (q := q) capacity hfetch n ret
    (by rw [heq]; omega)
  rw [heq] at hindices
  refine ⟨len, ⟨by rw [hbody], hindices, hslots, .inr ?_, fun hzero => ?_⟩, hlen⟩
  · rw [hbody]
    exact ⟨rfl, rfl⟩
  · rw [hzero] at hstores hbody hout
    have hret : ret' = ret := funext fun x => hout x (Nat.zero_le x)
    rw [hstores.unique .zero, BitVec.add_zero, hret] at hbody
    rw [hbody]

/-- Each bulk call transfers as many elements as `n`, read as `unsigned int`,
and the room there is allow. -/
theorem body_transfers (elem : Element T) (h : q.Bounded capacity) (c : BulkCall) (n : CInt) (ret : Nat → T) :
    ∃ len, Transfers elem capacity (c.body capacity n) ⟨q, ret⟩ len
      ∧ len.toNat = min n.toNat (c.room capacity q) := by
  cases c with
  | pushTrivialConst | pushTrivial | pushNontrivialConst =>
      exact pushBody_transfers h fetches_readRet n ret
  | pushNontrivial => exact pushBody_transfers h fetches_moveRet n ret
  | popTrivial => exact popBody_transfers h (fun _ _ => rfl) leaves_readSlot n ret
  | popNontrivial => exact popBody_transfers h (fun _ _ => rfl) leaves_moveSlot n ret

/-! ## The caller's length -/

/-- The call stays within the `n` elements that the caller has: what it touches,
how far it moves the counters and what it returns. -/
structure Respects (elem : Element T) (capacity : Capacity) (p : WorkerProg T CInt)
    (m : WorkerMemory T) (n : CInt) : Prop where
  ret : ∀ i ∈ touched WorkerAccess.retIndex elem p m, (i : Int) < max n.toInt 0
  slots : ∀ i ∈ touched WorkerAccess.slot elem p m, i < capacity.size
  in_ : (((execWorker elem p m).2.fifo.in_ - m.fifo.in_).toNat : Int) ≤ max n.toInt 0
  out : (((execWorker elem p m).2.fifo.out - m.fifo.out).toNat : Int) ≤ max n.toInt 0
  result : 0 ≤ (execWorker elem p m).1.toInt ∧ (execWorker elem p m).1.toInt ≤ max n.toInt 0
  nothing : n.toInt ≤ 0 → (execWorker elem p m).1 = 0#32 ∧ (execWorker elem p m).2 = m

theorem BulkCall.room_le (h : q.Bounded capacity) (c : BulkCall) :
    c.room capacity q ≤ 2 ^ 31 := by
  have hsize := capacity.size_le
  have hbound : (q.in_ - q.out).toNat ≤ capacity.size := h
  cases c <;> simp only [BulkCall.room] <;> omega

theorem Transfers.respects {p : WorkerProg T CInt} {m : WorkerMemory T} {len : Unsigned} {n : CInt}
    (h : Transfers elem capacity p m len) (hlen : (len.toNat : Int) ≤ max n.toInt 0) :
    Respects elem capacity p m n := by
  have hn : 2 * n.toInt < 2 ^ 32 := BitVec.two_mul_toInt_lt
  have hsigned : len.toInt = len.toNat := BitVec.toInt_eq_toNat_of_lt (by omega)
  have hin : (((execWorker elem p m).2.fifo.in_ - m.fifo.in_).toNat : Int) ≤ len.toNat
      ∧ (((execWorker elem p m).2.fifo.out - m.fifo.out).toNat : Int) ≤ len.toNat := by
    rcases h.counters with ⟨hin, hout⟩ | ⟨hin, hout⟩
    · rw [hin, hout, add_sub_cancel_left, sub_self]
      exact ⟨Int.le_refl _, Int.natCast_nonneg _⟩
    · rw [hin, hout, add_sub_cancel_left, sub_self]
      exact ⟨Int.natCast_nonneg _, Int.le_refl _⟩
  refine ⟨?_, h.slots, by omega, by omega, ?_, ?_⟩
  · intro i hi
    rw [h.ret, List.mem_range] at hi
    omega
  · rw [h.result, hsigned]
    omega
  · intro hle
    have hzero : len = 0#32 := BitVec.toNat_inj.mp (by simp only [BitVec.toNat_ofNat]; omega)
    exact ⟨h.result.trans hzero, h.nothing hzero⟩

/-- A bulk call respects the caller's array exactly when the length is not
negative or there is nothing to transfer: a negative `n` is a huge `unsigned
int`, and as many elements are transferred as there is room for. -/
theorem bulk_respects_iff (elem : Element T) (capacity : Capacity) (q : Fifo T)
    (h : q.Bounded capacity) (c : BulkCall) (ret : Nat → T) (n : CInt) :
    Respects elem capacity (c.body capacity n) ⟨q, ret⟩ n
      ↔ 0 ≤ n.toInt ∨ c.room capacity q = 0 := by
  obtain ⟨len, htransfers, hlen⟩ := body_transfers elem h c n ret
  have hroom := c.room_le h
  constructor
  · intro hrespects
    by_contra hnot
    obtain ⟨hneg, hsome⟩ := not_or.mp hnot
    have hhuge : 2 ^ 31 ≤ n.toNat := by
      rw [BitVec.toInt_eq_toNat_cond] at hneg
      split at hneg <;> omega
    have hzero := htransfers.result.symm.trans (hrespects.nothing (by omega)).1
    rw [hzero, BitVec.toNat_ofNat] at hlen
    omega
  · intro hfits
    refine htransfers.respects ?_
    rcases hfits with hpos | hnone
    · have hcount := toInt_toNat_of_nonneg hpos
      omega
    · omega

/-- Two free slots and a length of three: the caller's first two elements are
all that is touched. -/
theorem bulk_respects_iff_two :
    Respects ⟨false, fun _ => 0⟩ .two (BulkCall.pushNontrivial.body .two 3#32)
      ⟨⟨0#32, 0#32, fun _ => 9⟩, id⟩ 3#32 :=
  (bulk_respects_iff _ .two _
    (reachable_bounded ⟨false, fun _ => 0⟩ (s := .fresh fun _ => 9) (.of_init ⟨_, rfl⟩))
    .pushNontrivial id 3#32).mpr (.inl (by decide))

/-- An empty ring of two slots and a length of `- 1`: two elements of the caller's
are read, `in` advances by two, and two is returned. -/
theorem negative_length_reads_two :
    let q : Fifo Nat := ⟨0#32, 0#32, fun _ => 9⟩
    let p := BulkCall.pushTrivial.body .two (-1)
    touched WorkerAccess.retIndex ⟨true, id⟩ p ⟨q, id⟩ = [0, 1]
      ∧ (execWorker ⟨true, id⟩ p ⟨q, id⟩).1 = 2#32
      ∧ (execWorker ⟨true, id⟩ p ⟨q, id⟩).2.fifo.in_ = 2#32
      ∧ ¬ Respects ⟨true, id⟩ .two p ⟨q, id⟩ (-1) := by
  refine ⟨by decide, by decide, by decide, ?_⟩
  intro hrespects
  have hnothing := (hrespects.nothing (by decide)).1
  revert hnothing
  decide

end LockFreeRingBuf
