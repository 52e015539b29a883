import LockFreeRingBuf.SinkBuffer
import LockFreeRingBuf.Lib.Transition
import Mathlib.Logic.Function.Basic

/-!
# The sink thread and the buffers it shares

`cacheBufQueue`, `sinkBufQueue`, the buffers themselves, the exit flag and
the file, as `sinkBufBG` and `RingBufBG` share them. `sinkBufBG` is
modelled whole, one step for each unlocked read of a size or of the flag
and one for each `mutexSink` section; of `RingBufBG` only what it does to
the shared state, in any order (`PoolCmd`). A buffer is named by the
number of buffers allocated before it.

Beside the memory the model keeps, and the code never reads: the records
copied into each buffer since its last `reset`, all records copied out
(`drained`) and all records written to the file (`written`); every push
onto `sinkBufQueue` and every `write`, with the bytes of the buffer at
that moment; and the deleted buffers.
-/

namespace LockFreeRingBuf

open Bytes Transition

variable {R : Type}

/-- Where `sinkBufBG` is, with its `pBuffer` where it holds one. -/
inductive SinkBufBG where
  /-- `while (!sinkBufBGExit)` -/
  | exitTest
  /-- `if (sinkBufQueue.size() > 0)` -/
  | sizeTest
  /-- the locked `front()` and `pop()` -/
  | pop
  | write (b : Nat)
  | reset (b : Nat)
  /-- `if (cacheBufQueue.size() >= CacheBufQueueSize)` -/
  | cacheTest (b : Nat)
  | delete (b : Nat)
  /-- the locked `push_back` -/
  | pushBack (b : Nat)
  | done
deriving DecidableEq

structure Pool (R : Type) where
  cacheBufQueue : List Nat
  sinkBufQueue : List Nat
  heap : Nat → SinkBuffer
  allocNum : Nat
  sinkBufBGExit : Bool
  file : List Byte
  /-- `RingBufBG`'s `pBuffer`; `none` is `nullptr`. -/
  pBuffer : Option Nat
  sink : SinkBufBG
  records : Nat → List R
  drained : List R
  written : List R
  pushes : List (Nat × List Byte)
  writes : List (Nat × List Byte)
  deleted : List Nat

namespace Pool

/-! ## `sinkBufBG` -/

/-- One step of `sinkBufBG`; `none` once it has returned. -/
def sinkStep (CacheBufQueueSize : Nat) (s : Pool R) : Option (Pool R) :=
  match s.sink with
  | .exitTest => some { s with sink := if s.sinkBufBGExit then .done else .sizeTest }
  | .sizeTest => some { s with sink := if s.sinkBufQueue.length > 0 then .pop else .exitTest }
  | .pop =>
    match s.sinkBufQueue with
    | [] => none
    | b :: rest => some { s with sinkBufQueue := rest, sink := .write b }
  | .write b => some { s with
      file := s.file ++ (s.heap b).contents
      writes := s.writes ++ [(b, (s.heap b).contents)]
      written := s.written ++ s.records b
      sink := .reset b }
  | .reset b => some { s with
      heap := Function.update s.heap b (s.heap b).reset
      records := Function.update s.records b []
      sink := .cacheTest b }
  | .cacheTest b => some { s with
      sink := if s.cacheBufQueue.length ≥ CacheBufQueueSize then .delete b else .pushBack b }
  | .delete b => some { s with deleted := s.deleted ++ [b], sink := .exitTest }
  | .pushBack b => some { s with cacheBufQueue := s.cacheBufQueue ++ [b], sink := .exitTest }
  | .done => none

/-! ## `RingBufBG`'s side -/

/-- The first take: `pBuffer = cacheBufQueue.back(); pop_back()`. -/
def take (s : Pool R) : Option (Pool R) :=
  match s.pBuffer, s.cacheBufQueue.getLast? with
  | none, some b => some { s with cacheBufQueue := s.cacheBufQueue.dropLast, pBuffer := some b }
  | _, _ => none

/-- Change the buffer that `RingBufBG` holds. -/
def modify (f : SinkBuffer → SinkBuffer) (s : Pool R) : Option (Pool R) :=
  s.pBuffer.map fun b => { s with heap := Function.update s.heap b (f (s.heap b)) }

/-- `pBuffer->append`, which completes record `r`. -/
def append (bs : List Byte) (r : R) (s : Pool R) : Option (Pool R) :=
  s.pBuffer.map fun b => { s with
    heap := Function.update s.heap b ((s.heap b).append bs)
    records := Function.update s.records b (s.records b ++ [r])
    drained := s.drained ++ [r] }

/-- The locked section of both swap sites: push `pBuffer` and take a buffer
from the cache, or a new one. -/
def handOff (CacheBufQueueSize : Nat) (s : Pool R) : Option (Pool R) :=
  s.pBuffer.map fun b =>
    let s := { s with
      sinkBufQueue := s.sinkBufQueue ++ [b]
      pushes := s.pushes ++ [(b, (s.heap b).contents)] }
    match s.cacheBufQueue.getLast? with
    | some b => { s with cacheBufQueue := s.cacheBufQueue.dropLast, pBuffer := some b }
    | none =>
      let b := CacheBufQueueSize + s.allocNum
      { s with
        heap := Function.update s.heap b (.construct (s.heap b).data_)
        records := Function.update s.records b []
        pBuffer := some b
        allocNum := s.allocNum + 1 }

/-- `sinkBufBGExit = true`. -/
def exit (s : Pool R) : Pool R := { s with sinkBufBGExit := true }

end Pool

inductive PoolCmd (R : Type) where
  | take
  | store (off : Nat) (bs : List Byte)
  | add (len : Nat)
  | append (bs : List Byte) (r : R)
  | handOff
  | exit

inductive PoolLabel (R : Type) where
  | writer (c : PoolCmd R)
  | sink

def Pool.step (CacheBufQueueSize : Nat) : PoolLabel R → Pool R → Option (Pool R)
  | .writer .take, s => s.take
  | .writer (.store off bs), s => s.modify (·.store off bs)
  | .writer (.add len), s => s.modify (·.add len)
  | .writer (.append bs r), s => s.append bs r
  | .writer .handOff, s => s.handOff CacheBufQueueSize
  | .writer .exit, s => some s.exit
  | .sink, s => s.sinkStep CacheBufQueueSize

/-- Everything one step can do to the pool. -/
inductive Pool.Moves (CacheBufQueueSize : Nat) (s : Pool R) : PoolLabel R → Pool R → Prop
  | take {init b} : s.pBuffer = none → s.cacheBufQueue = init ++ [b] →
      Moves CacheBufQueueSize s (.writer .take) { s with cacheBufQueue := init, pBuffer := some b }
  | store {b off bs} : s.pBuffer = some b →
      Moves CacheBufQueueSize s (.writer (.store off bs))
        { s with heap := Function.update s.heap b ((s.heap b).store off bs) }
  | add {b len} : s.pBuffer = some b →
      Moves CacheBufQueueSize s (.writer (.add len))
        { s with heap := Function.update s.heap b ((s.heap b).add len) }
  | append {b bs r} : s.pBuffer = some b →
      Moves CacheBufQueueSize s (.writer (.append bs r)) { s with
        heap := Function.update s.heap b ((s.heap b).append bs)
        records := Function.update s.records b (s.records b ++ [r])
        drained := s.drained ++ [r] }
  | swap {b init b'} : s.pBuffer = some b → s.cacheBufQueue = init ++ [b'] →
      Moves CacheBufQueueSize s (.writer .handOff) { s with
        sinkBufQueue := s.sinkBufQueue ++ [b]
        pushes := s.pushes ++ [(b, (s.heap b).contents)]
        cacheBufQueue := init
        pBuffer := some b' }
  | grow {b} : s.pBuffer = some b → s.cacheBufQueue = [] →
      Moves CacheBufQueueSize s (.writer .handOff) { s with
        sinkBufQueue := s.sinkBufQueue ++ [b]
        pushes := s.pushes ++ [(b, (s.heap b).contents)]
        heap := Function.update s.heap (CacheBufQueueSize + s.allocNum)
          (.construct (s.heap (CacheBufQueueSize + s.allocNum)).data_)
        records := Function.update s.records (CacheBufQueueSize + s.allocNum) []
        pBuffer := some (CacheBufQueueSize + s.allocNum)
        allocNum := s.allocNum + 1 }
  | exit : Moves CacheBufQueueSize s (.writer .exit) { s with sinkBufBGExit := true }
  | exitTest : s.sink = .exitTest → Moves CacheBufQueueSize s .sink
      { s with sink := if s.sinkBufBGExit then .done else .sizeTest }
  | sizeTest : s.sink = .sizeTest → Moves CacheBufQueueSize s .sink
      { s with sink := if s.sinkBufQueue.length > 0 then .pop else .exitTest }
  | pop {b rest} : s.sink = .pop → s.sinkBufQueue = b :: rest → Moves CacheBufQueueSize s .sink
      { s with sinkBufQueue := rest, sink := .write b }
  | write {b} : s.sink = .write b → Moves CacheBufQueueSize s .sink { s with
      file := s.file ++ (s.heap b).contents
      writes := s.writes ++ [(b, (s.heap b).contents)]
      written := s.written ++ s.records b
      sink := .reset b }
  | reset {b} : s.sink = .reset b → Moves CacheBufQueueSize s .sink { s with
      heap := Function.update s.heap b (s.heap b).reset
      records := Function.update s.records b []
      sink := .cacheTest b }
  | cacheTest {b} : s.sink = .cacheTest b → Moves CacheBufQueueSize s .sink { s with
      sink := if s.cacheBufQueue.length ≥ CacheBufQueueSize then .delete b else .pushBack b }
  | delete {b} : s.sink = .delete b → Moves CacheBufQueueSize s .sink
      { s with deleted := s.deleted ++ [b], sink := .exitTest }
  | pushBack {b} : s.sink = .pushBack b → Moves CacheBufQueueSize s .sink
      { s with cacheBufQueue := s.cacheBufQueue ++ [b], sink := .exitTest }

theorem Pool.sinkStep_moves {CacheBufQueueSize : Nat} {s s' : Pool R}
    (h : s.sinkStep CacheBufQueueSize = some s') : s.Moves CacheBufQueueSize .sink s' := by
  unfold Pool.sinkStep at h
  cases hsink : s.sink with
  | pop =>
      simp only [hsink] at h
      split at h
      · cases h
      · next b rest hqueue => obtain rfl := Option.some.inj h; exact .pop hsink hqueue
  | done => simp only [hsink] at h; cases h
  | exitTest => simp only [hsink] at h; obtain rfl := Option.some.inj h; exact .exitTest hsink
  | sizeTest => simp only [hsink] at h; obtain rfl := Option.some.inj h; exact .sizeTest hsink
  | write b => simp only [hsink] at h; obtain rfl := Option.some.inj h; exact .write hsink
  | reset b => simp only [hsink] at h; obtain rfl := Option.some.inj h; exact .reset hsink
  | cacheTest b => simp only [hsink] at h; obtain rfl := Option.some.inj h; exact .cacheTest hsink
  | delete b => simp only [hsink] at h; obtain rfl := Option.some.inj h; exact .delete hsink
  | pushBack b => simp only [hsink] at h; obtain rfl := Option.some.inj h; exact .pushBack hsink

theorem Pool.step_moves {CacheBufQueueSize : Nat} {l : PoolLabel R} {s s' : Pool R}
    (h : Pool.step CacheBufQueueSize l s = some s') : s.Moves CacheBufQueueSize l s' := by
  cases l with
  | sink => exact Pool.sinkStep_moves h
  | writer c =>
      cases c with
      | take =>
          simp only [Pool.step, Pool.take] at h
          split at h
          · next b hnone hlast =>
              obtain ⟨init, hcache⟩ := List.getLast?_eq_some_iff.mp hlast
              obtain rfl := Option.some.inj h
              rw [hcache, List.dropLast_concat]
              exact .take hnone hcache
          · cases h
      | store off bs =>
          obtain ⟨b, hb, rfl⟩ := Option.map_eq_some_iff.mp h
          exact .store hb
      | add len =>
          obtain ⟨b, hb, rfl⟩ := Option.map_eq_some_iff.mp h
          exact .add hb
      | append bs r =>
          obtain ⟨b, hb, rfl⟩ := Option.map_eq_some_iff.mp h
          exact .append hb
      | handOff =>
          obtain ⟨b, hb, hs⟩ := Option.map_eq_some_iff.mp h
          simp only at hs
          split at hs
          · next b' hlast =>
              obtain ⟨init, hcache⟩ := List.getLast?_eq_some_iff.mp hlast
              subst hs
              rw [hcache, List.dropLast_concat]
              exact .swap hb hcache
          · next hlast =>
              subst hs
              exact .grow hb (List.getLast?_eq_none_iff.mp hlast)
      | exit => obtain rfl := Option.some.inj h; exact .exit

/-- Only `append` copies a record out. -/
theorem Pool.Moves.drained_eq {CacheBufQueueSize : Nat} {l : PoolLabel R} {s s' : Pool R}
    (h : s.Moves CacheBufQueueSize l s') (hl : ∀ bs r, l ≠ .writer (.append bs r)) :
    s'.drained = s.drained := by
  cases h with
  | @append b bs r hb => exact absurd rfl (hl bs r)
  | _ => rfl

theorem Pool.Moves.drained_grows {CacheBufQueueSize : Nat} {l : PoolLabel R} {s s' : Pool R}
    (h : s.Moves CacheBufQueueSize l s') : s.drained <+: s'.drained := by
  cases h with
  | append hb => exact List.prefix_append _ _
  | _ => exact List.prefix_rfl

/-- `main`'s pool: `CacheBufQueueSize` constructed buffers in the cache. -/
def Pool.main (CacheBufQueueSize : Nat) (memory : Nat → Nat → Byte) : Pool R where
  cacheBufQueue := List.range CacheBufQueueSize
  sinkBufQueue := []
  heap b := .construct (memory b)
  allocNum := 0
  sinkBufBGExit := false
  file := []
  pBuffer := none
  sink := .exitTest
  records _ := []
  drained := []
  written := []
  pushes := []
  writes := []
  deleted := []

def poolSystem (R : Type) (CacheBufQueueSize : Nat) : System (PoolLabel R) (Pool R) where
  init s := ∃ memory, s = .main CacheBufQueueSize memory
  step := Pool.step CacheBufQueueSize

end LockFreeRingBuf
