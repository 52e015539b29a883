import LockFreeRingBuf.RingLocal
import LockFreeRingBuf.Lib.StoreBuffer

/-!
# The ring on a machine with store buffers

The fences in the code are those of x86, whose threads store through store
buffers. Here the two threads run on such a machine: a step of a thread is
the step of `RingThreads` on the memory as the thread sees it, except that its
stores go to its buffer.

The fences are left out. `sfence` orders stores and `lfence` orders loads,
which this machine keeps in order anyway, and `mfence`, in the bulk `pop`,
waits for the buffer to drain. So without them there are only more
executions, and what holds of all of these holds with the fences.

A value is stored at once. Where the code needs several stores for one, they
drain in order too, all of them before the bump of `in` that publishes it.

`published` and `consumed` are the histories of the bumps as the threads make
them, not as they drain.
-/

namespace LockFreeRingBuf

open Resumption Transition StoreBuffer

variable {T : Type}

/-! ## Stores -/

inductive Store (T : Type) where
  | in_ (v : Unsigned)
  | out (v : Unsigned)
  | slot (i : Nat) (t : T)

def Store.apply : Store T → Fifo T → Fifo T
  | .in_ v, q => { q with in_ := v }
  | .out v, q => { q with out := v }
  | .slot i t, q => { q with arr := setSlot q.arr i t }

/-- The stores of an access whose thread sees the memory `q`. -/
def Access.stores (elem : Element T) (q : Fifo T) : Access T → List (Store T)
  | .moveSlot i => [.slot i (elem.moved (q.arr i))]
  | .writeSlot i t => [.slot i t]
  | .writeIn v => [.in_ v]
  | .writeOut v => [.out v]
  | _ => []

theorem Access.drain_stores (elem : Element T) (q : Fifo T) (a : Access T) :
    drain Store.apply (a.stores elem q) q = (q.perform elem a).2 := by
  cases a <;> rfl

namespace Config

variable (elem : Element T) (s : Config T)

/-- The stores of a command of the producer. -/
def producerStores : ProducerCmd T → List (Store T)
  | .call _ => []
  | .step =>
    match s.producer with
    | .running _ _ (.act a _) => a.stores elem s.shared.toFifo
    | _ => []
  | .write f =>
    match s.producer with
    | .reserved p _ => [.slot p (f (s.shared.arr p))]
    | _ => []

/-- The stores of a command of the consumer. -/
def consumerStores : ConsumerCmd T → List (Store T)
  | .step =>
    match s.consumer with
    | .running _ _ (.act a _) => a.stores elem s.shared.toFifo
    | _ => []
  | _ => []

end Config

/-! ## The system -/

structure TsoConfig (T : Type) where
  memory : Buffered RingThread (Fifo T) (Store T)
  published : List T
  consumed : List T
  producer : Producer T
  consumer : Consumer T

inductive TsoCmd (T : Type) where
  | producer (c : ProducerCmd T)
  | consumer (c : ConsumerCmd T)
  /-- The oldest store of a thread's buffer drains into memory. -/
  | drain (i : RingThread)

namespace TsoConfig

/-- The configuration that a thread sees whose memory is `q`. -/
def showing (s : TsoConfig T) (q : Fifo T) : Config T where
  shared := { q with published := s.published, consumed := s.consumed }
  producer := s.producer
  consumer := s.consumer

def seenBy (s : TsoConfig T) (i : RingThread) : Config T :=
  s.showing (s.memory.view Store.apply i)

/-- `s` after a step of thread `i` that makes the stores `ws` and that the thread
sees end in `c`. -/
def after (s : TsoConfig T) (i : RingThread) (ws : List (Store T)) (c : Config T) :
    TsoConfig T where
  memory := s.memory.store i ws
  published := c.shared.published
  consumed := c.shared.consumed
  producer := c.producer
  consumer := c.consumer

/-- A configuration of the ring with nothing buffered. -/
def quiet (c : Config T) : TsoConfig T where
  memory := .quiet c.shared.toFifo
  published := c.shared.published
  consumed := c.shared.consumed
  producer := c.producer
  consumer := c.consumer

variable (elem : Element T) (capacity : Capacity)

def step : TsoCmd T → TsoConfig T → Option (TsoConfig T)
  | .producer cmd, s =>
    let c := s.seenBy .producer
    (c.producerStep elem capacity cmd).map (s.after .producer (c.producerStores elem cmd))
  | .consumer cmd, s =>
    let c := s.seenBy .consumer
    (c.consumerStep elem capacity cmd).map (s.after .consumer (c.consumerStores elem cmd))
  | .drain i, s => (s.memory.flush Store.apply i).map fun memory => { s with memory }

end TsoConfig

/-- The queue shared by one producer and one consumer with store buffers. -/
def tsoSystem (elem : Element T) (capacity : Capacity) : System (TsoCmd T) (TsoConfig T) where
  init s := ∃ arr, s = .quiet (.fresh arr)
  step := TsoConfig.step elem capacity

variable {elem : Element T} {capacity : Capacity}

/-! ## What the threads see -/

namespace Config

variable {s : Config T}

theorem producerStores_act {c : ProducerCall T} {offer : List T} {a : Access T}
    {k : a.Answer → QueueProg T (Option ProducerAnswer)}
    (hp : s.producer = .running c offer (.act a k)) :
    s.producerStores elem .step = a.stores elem s.shared.toFifo := by
  simp only [producerStores, hp]

theorem producerStores_ret {c : ProducerCall T} {offer : List T} {ans : Option ProducerAnswer}
    (hp : s.producer = .running c offer (.ret ans)) : s.producerStores elem .step = [] := by
  simp only [producerStores, hp]

theorem producerStores_write {i : Nat} {value : T} {f : T → T}
    (hp : s.producer = .reserved i value) :
    s.producerStores elem (.write f) = [.slot i (f (s.shared.arr i))] := by
  simp only [producerStores, hp]

theorem consumerStores_act {c : ConsumerCall T} {taken : List T} {a : Access T}
    {k : a.Answer → QueueProg T (ConsumerAnswer T)}
    (hc : s.consumer = .running c taken (.act a k)) :
    s.consumerStores elem .step = a.stores elem s.shared.toFifo := by
  simp only [consumerStores, hc]

theorem consumerStores_ret {c : ConsumerCall T} {taken : List T} {ans : ConsumerAnswer T}
    (hc : s.consumer = .running c taken (.ret ans)) : s.consumerStores elem .step = [] := by
  simp only [consumerStores, hc]

end Config

/-- The stores of a step are those that the producer sees it make. -/
theorem Config.ProducerMoves.drain_stores {s s' : Config T} {cmd : ProducerCmd T}
    (h : s.ProducerMoves elem capacity cmd s') :
    drain Store.apply (s.producerStores elem cmd) s.shared.toFifo = s'.shared.toFifo := by
  cases h with
  | call => rfl
  | @access c offer a k hp =>
      rw [producerStores_act hp, Access.drain_stores]
      cases a <;> rfl
  | again hp | reserve hp | leave hp _ =>
      rw [producerStores_ret hp]
      rfl
  | write hp =>
      rw [producerStores_write hp]
      rfl

theorem Config.ConsumerMoves.drain_stores {s s' : Config T} {cmd : ConsumerCmd T}
    (h : s.ConsumerMoves elem capacity cmd s') :
    drain Store.apply (s.consumerStores elem cmd) s.shared.toFifo = s'.shared.toFifo := by
  cases h with
  | call | look | read | drop => rfl
  | @access c taken a k hc =>
      rw [consumerStores_act hc, Access.drain_stores]
      cases a <;> rfl
  | peek hc | leave hc _ =>
      rw [consumerStores_ret hc]
      rfl

/-! ## Executions with nothing buffered -/

theorem Config.producerStores_cases (elem : Element T) (s : Config T) (cmd : ProducerCmd T) :
    s.producerStores elem cmd = [] ∨ ∃ w, s.producerStores elem cmd = [w] := by
  cases cmd with
  | call => exact .inl rfl
  | step =>
      dsimp only [producerStores]
      split
      · next a _ _ => cases a <;> simp [Access.stores]
      · exact .inl rfl
  | write f =>
      dsimp only [producerStores]
      split
      · exact .inr ⟨_, rfl⟩
      · exact .inl rfl

theorem Config.consumerStores_cases (elem : Element T) (s : Config T) (cmd : ConsumerCmd T) :
    s.consumerStores elem cmd = [] ∨ ∃ w, s.consumerStores elem cmd = [w] := by
  cases cmd with
  | step =>
      dsimp only [consumerStores]
      split
      · next a _ _ => cases a <;> simp [Access.stores]
      · exact .inl rfl
  | _ => exact .inl rfl

/-- The store of a step drains at once. -/
theorem TsoConfig.quiet_after {s s' : Config T} {i : RingThread} {ws : List (Store T)}
    (hws : ws = [] ∨ ∃ w, ws = [w])
    (hdrain : drain Store.apply ws s.shared.toFifo = s'.shared.toFifo) :
    (tsoSystem elem capacity).Steps ((quiet s).after i ws s') (quiet s') := by
  rcases hws with rfl | ⟨w, rfl⟩
  · rw [after, Buffered.store_nil]
    have hsame : s.shared.toFifo = s'.shared.toFifo := hdrain
    rw [quiet, quiet, hsame]
    exact .refl
  · refine .single ⟨.drain i, ?_⟩
    show (((quiet s).memory.store i [w]).flush Store.apply i).map _ = _
    rw [Buffered.store_flush rfl, Option.map_some]
    have hnext : w.apply s.shared.toFifo = s'.shared.toFifo := hdrain
    simp only [quiet, after, Buffered.quiet, hnext]

/-- Every execution of the ring is one of this machine, in which each store drains
as soon as it is made. -/
theorem tso_of_ring {s : Config T} (h : (ringSystem elem capacity).Reachable s) :
    (tsoSystem elem capacity).Reachable (.quiet s) := by
  refine h.invariant (I := fun s => (tsoSystem elem capacity).Reachable (.quiet s)) ?_ ?_
  · rintro s ⟨arr, rfl⟩
    exact .of_init ⟨arr, rfl⟩
  · intro cmd s s' _ hs hstep
    cases cmd with
    | producer cmd =>
        have hmove := Config.producerStep_moves elem capacity hstep
        have hissue : (tsoSystem elem capacity).step (.producer cmd) (.quiet s)
            = some ((TsoConfig.quiet s).after .producer (s.producerStores elem cmd) s') :=
          congrArg (Option.map _) hstep
        exact (hs.step hissue).steps
          (TsoConfig.quiet_after (s.producerStores_cases elem cmd) hmove.drain_stores)
    | consumer cmd =>
        have hmove := Config.consumerStep_moves elem capacity hstep
        have hissue : (tsoSystem elem capacity).step (.consumer cmd) (.quiet s)
            = some ((TsoConfig.quiet s).after .consumer (s.consumerStores elem cmd) s') :=
          congrArg (Option.map _) hstep
        exact (hs.step hissue).steps
          (TsoConfig.quiet_after (s.consumerStores_cases elem cmd) hmove.drain_stores)

end LockFreeRingBuf
