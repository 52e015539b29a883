import LockFreeRingBuf.RingThreads
import LockFreeRingBuf.SinkPool

/-!
# The logging pipeline

`ThreadNum` threads run `add`, each on its own ring; `RingBufBG` drains the
rings into sink buffers; `sinkBufBG` writes them. A step is one access to
a ring (as in `RingThreads`), one access to the pool (as in `SinkPool`), or
one test on local variables; `RingBufBG`'s stores into the buffer it holds
are steps of their own. Sleeps, waits on the condition variables and
`std::cout` are no steps: they order nothing.

The sizes are parameters, and the header a producer writes may differ from
record to record; `Params.source` has the constants of the source.
-/

namespace LockFreeRingBuf

open Bytes Transition

structure Header where
  fmtId : BitVec 32
  entrySize : BitVec 32

structure Params where
  addNum : Nat
  threadNum : Nat
  argNum : Nat
  ringBufSize : Capacity
  batchSizePop : Nat
  sinkBufferSize : Nat
  cacheBufQueueSize : Nat
  /-- What thread `t` writes into the header of its `i`-th record. -/
  header : (t i : Nat) → Header
  product_lt : addNum * threadNum < 2 ^ 31
  batch_lt : batchSizePop < 2 ^ 31
  size_pos : 0 < sinkBufferSize
  size_lt : sinkBufferSize < 2 ^ 31
  cache_pos : 0 < cacheBufQueueSize
  entrySize_ge : ∀ t i, 12 + argNum ≤ (header t i).entrySize.toNat

def Params.source : Params where
  addNum := 50000000
  threadNum := 2
  argNum := 4
  ringBufSize := ⟨16384#32, by decide⟩
  batchSizePop := 1000
  sinkBufferSize := 64 * 1024 * 1024
  cacheBufQueueSize := 4
  header _ _ := ⟨7#32, 16#32⟩
  product_lt := by decide
  batch_lt := by decide
  size_pos := by decide
  size_lt := by decide
  cache_pos := by decide
  entrySize_ge _ _ := by decide

/-- One thread, two records, and buffers that one record fills. -/
def Params.tiny : Params where
  addNum := 2
  threadNum := 1
  argNum := 0
  ringBufSize := .two
  batchSizePop := 1000
  sinkBufferSize := 13
  cacheBufQueueSize := 1
  header _ _ := ⟨7#32, 12#32⟩
  product_lt := by decide
  batch_lt := by decide
  size_pos := by decide
  size_lt := by decide
  cache_pos := by decide
  entrySize_ge _ _ := by decide

/-! ## State -/

/-- Where `add` is. -/
inductive AddPc where
  /-- `while (i < AddNum)` -/
  | test
  /-- `t = Cycles::rdtsc()`, and the call of `reserve_1` -/
  | rdtsc
  | reserving
  | entrySize
  | fmtId
  | timestamp
  /-- the call of `finish_1` -/
  | finish
  | finishing
  | done
deriving DecidableEq

structure AddThread where
  pc : AddPc
  i : Nat
  t : BitVec 64

/-- Where `RingBufBG` is. -/
inductive BgPc where
  | take
  /-- `while (j < AddNum * ThreadNum)` -/
  | outer
  /-- `index < ThreadNum`, and the call of `peek` -/
  | forTest
  | peeking
  /-- `if (n == 0) continue` -/
  | peekTest
  /-- `while (count > 0)`, and after it the call of `consume` -/
  | copyTest
  /-- `(unsigned int)pBuffer->avail() > pStageBufPop->entrySize` -/
  | avail
  | fmtId
  | timestamp
  | add12
  /-- `pBuffer->append`, `++pStageBufPop` with its wrap, `--count` -/
  | append
  | swapFull
  | consuming
  /-- `nPerItr += n` -/
  | tally
  /-- `j += nPerItr` and the two tests after it -/
  | iterEnd
  | flush
  | exitFlag
  | done
deriving DecidableEq

/-- The local variables of `RingBufBG`; `pBuffer` is in the pool, and
`pStageBufPop` is the pointer of the peeking consumer. -/
structure RingBufBG where
  pc : BgPc
  j : Int
  nItrWithNonEmptyBuf : Nat
  nPerItr : Int
  index : Nat
  n : CInt
  count : Int

/-- A record copied out: the ring it came from, the number of draining
iterations that had ended by then, and the entry. -/
structure Record (argNum : Nat) where
  ring : Nat
  iter : Nat
  entry : UncompressedEntry argNum

structure Pipeline (P : Params) where
  rings : Nat → Config (UncompressedEntry P.argNum)
  adds : Nat → AddThread
  bg : RingBufBG
  pool : Pool (Record P.argNum)
  /-- Iterations of the outer loop that drained something and have ended. -/
  drainIters : Nat

namespace Pipeline

variable {P : Params}

/-- `UncompressedEntry` has default member initialisers, so it is not
trivial; moving out of one leaves it as it is. -/
def element (n : Nat) : Element (UncompressedEntry n) := ⟨false, id⟩

def produce (i : Nat) (c : ProducerCmd (UncompressedEntry P.argNum))
    (f : Config (UncompressedEntry P.argNum) → AddThread) (s : Pipeline P) :
    Option (Pipeline P) :=
  ((s.rings i).producerStep (element P.argNum) P.ringBufSize c).map fun r =>
    { s with rings := Function.update s.rings i r, adds := Function.update s.adds i (f r) }

/-- One step of thread `i` in `add`; `tsc` is what `rdtsc` returns there. -/
def addStep (i : Nat) (tsc : BitVec 64) (s : Pipeline P) : Option (Pipeline P) :=
  let a := s.adds i
  let header := P.header i a.i
  match a.pc with
  | .test =>
    let pc := if a.i < P.addNum then .rdtsc else .done
    some { s with adds := Function.update s.adds i { a with pc } }
  | .rdtsc => s.produce i (.call .reserve1) fun _ => { a with pc := .reserving, t := tsc }
  | .reserving => s.produce i .step fun r =>
    match r.producer with
    | .reserved _ _ => { a with pc := .entrySize }
    | _ => a
  | .entrySize => s.produce i (.write fun e => { e with entrySize := header.entrySize })
      fun _ => { a with pc := .fmtId }
  | .fmtId => s.produce i (.write fun e => { e with fmtId := header.fmtId })
      fun _ => { a with pc := .timestamp }
  | .timestamp => s.produce i (.write fun e => { e with timestamp := a.t })
      fun _ => { a with pc := .finish }
  | .finish => s.produce i (.call .finish1) fun _ => { a with pc := .finishing }
  | .finishing => s.produce i .step fun r =>
    match r.producer with
    | .idle => { a with pc := .test, i := a.i + 1 }
    | _ => a
  | .done => none

/-! ## `RingBufBG` -/

def consume (c : ConsumerCmd (UncompressedEntry P.argNum))
    (f : Config (UncompressedEntry P.argNum) → RingBufBG) (s : Pipeline P) :
    Option (Pipeline P) :=
  ((s.rings s.bg.index).consumerStep (element P.argNum) P.ringBufSize c).map fun r =>
    { s with rings := Function.update s.rings s.bg.index r, bg := f r }

def fill (c : PoolCmd (Record P.argNum)) (bg : RingBufBG) (s : Pipeline P) :
    Option (Pipeline P) :=
  (Pool.step P.cacheBufQueueSize (.writer c) s.pool).map fun pool => { s with pool, bg }

/-- The entry `pStageBufPop` points to. -/
def stageBufPop (s : Pipeline P) : Option (UncompressedEntry P.argNum) :=
  match (s.rings s.bg.index).consumer with
  | .peeked _ p _ => some ((s.rings s.bg.index).shared.arr p)
  | _ => none

/-- The buffer `pBuffer` points to. -/
def buffer? (s : Pipeline P) : Option SinkBuffer := s.pool.pBuffer.map s.pool.heap

def bgStep (s : Pipeline P) : Option (Pipeline P) :=
  let bg := s.bg
  match bg.pc with
  | .take => s.fill .take { bg with pc := .outer }
  | .outer =>
    if bg.j < (P.addNum * P.threadNum : Nat) then
      some { s with bg := { bg with pc := .forTest, nPerItr := 0, index := 0 } }
    else some { s with bg := { bg with pc := .exitFlag } }
  | .forTest =>
    if bg.index < P.threadNum then
      s.consume (.call (.peek (BitVec.ofNat 32 P.batchSizePop))) fun _ => { bg with pc := .peeking }
    else some { s with bg := { bg with pc := .iterEnd } }
  | .peeking => s.consume .step fun r =>
    match r.consumer with
    | .peeked n _ _ => { bg with pc := .peekTest, n }
    | _ => bg
  | .peekTest =>
    if bg.n = 0#32 then
      s.consume .drop fun _ => { bg with pc := .forTest, index := bg.index + 1 }
    else some { s with bg := { bg with pc := .copyTest, count := bg.n.toInt } }
  | .copyTest =>
    if 0 < bg.count then some { s with bg := { bg with pc := .avail } }
    else s.consume (.call (.consume bg.n)) fun _ => { bg with pc := .consuming }
  | .avail => do
    let e ← s.stageBufPop
    let b ← s.buffer?
    let pc := if e.entrySize < b.avail P.sinkBufferSize then .fmtId else .swapFull
    s.consume .look fun _ => { bg with pc }
  | .fmtId => do
    let e ← s.stageBufPop
    let b ← s.buffer?
    let s ← s.consume .look fun _ => bg
    s.fill (.store b.current (littleEndian 4 e.fmtId)) { bg with pc := .timestamp }
  | .timestamp => do
    let e ← s.stageBufPop
    let b ← s.buffer?
    let s ← s.consume .look fun _ => bg
    s.fill (.store (b.current + 4) (littleEndian 8 e.timestamp)) { bg with pc := .add12 }
  | .add12 => s.fill (.add 12) { bg with pc := .append }
  | .append => do
    let e ← s.stageBufPop
    let s ← s.consume .read fun _ => bg
    s.fill (.append e.argData.toList ⟨bg.index, s.drainIters, e⟩)
      { bg with pc := .copyTest, count := bg.count - 1 }
  | .swapFull => s.fill .handOff { bg with pc := .copyTest, nItrWithNonEmptyBuf := 0 }
  | .consuming => s.consume .step fun r =>
    match r.consumer with
    | .idle => { bg with pc := .tally }
    | _ => bg
  | .tally =>
    some { s with bg :=
      { bg with pc := .forTest, nPerItr := bg.nPerItr + bg.n.toInt, index := bg.index + 1 } }
  | .iterEnd =>
    let bg : RingBufBG := { bg with j := bg.j + bg.nPerItr }
    if bg.nPerItr = 0 then some { s with bg := { bg with pc := .outer } }
    else
      let nItrWithNonEmptyBuf := bg.nItrWithNonEmptyBuf + 1
      let pc := if nItrWithNonEmptyBuf > 2000 then .flush else .outer
      some { s with bg := { bg with pc, nItrWithNonEmptyBuf }, drainIters := s.drainIters + 1 }
  | .flush => s.fill .handOff { bg with pc := .outer, nItrWithNonEmptyBuf := 0 }
  | .exitFlag => s.fill .exit { bg with pc := .done }
  | .done => none

end Pipeline

/-! ## The system -/

inductive PipelineLabel where
  | add (i : Nat) (tsc : BitVec 64)
  | bg
  | sink

def Pipeline.step {P : Params} : PipelineLabel → Pipeline P → Option (Pipeline P)
  | .add i tsc, s => if i < P.threadNum then s.addStep i tsc else none
  | .bg, s => s.bgStep
  | .sink, s => (s.pool.sinkStep P.cacheBufQueueSize).map fun pool => { s with pool }

/-- The state in which `main` starts the threads: the slots of the rings and
the arrays of the buffers are as they were allocated. -/
def Pipeline.main {P : Params} (arr : Nat → Nat → UncompressedEntry P.argNum)
    (memory : Nat → Nat → Byte) : Pipeline P where
  rings i := .fresh (arr i)
  adds _ := ⟨.test, 0, 0⟩
  bg := ⟨.take, 0, 0, 0, 0, 0#32, 0⟩
  pool := .main P.cacheBufQueueSize memory
  drainIters := 0

def pipeline (P : Params) : System PipelineLabel (Pipeline P) where
  init s := ∃ arr memory, s = .main arr memory
  step := Pipeline.step

/-- The start of the tiny pipeline, every byte zero. -/
def Pipeline.tiny : Pipeline .tiny := .main (fun _ _ => ⟨0#32, 0#32, 0#64, #v[]⟩) fun _ _ => 0#8

/-- A schedule: the threads in turn, each for the given number of steps. -/
def schedule (turns : List (PipelineLabel × Nat)) : List PipelineLabel :=
  turns.flatMap fun turn => List.replicate turn.2 turn.1

/-- Where a schedule brings the tiny pipeline, the start if it cannot be kept. -/
def Pipeline.tinyAfter (turns : List (PipelineLabel × Nat)) : Pipeline .tiny :=
  ((pipeline .tiny).perform (schedule turns) .tiny).getD .tiny

theorem Pipeline.tinyAfter_reachable (turns : List (PipelineLabel × Nat)) :
    (pipeline .tiny).Reachable (tinyAfter turns) := by
  have hstart : (pipeline .tiny).Reachable Pipeline.tiny := .of_init ⟨_, _, rfl⟩
  unfold tinyAfter
  cases h : (pipeline .tiny).perform (schedule turns) .tiny with
  | none => exact hstart
  | some s => exact hstart.steps (System.steps_of_perform h)

end LockFreeRingBuf
