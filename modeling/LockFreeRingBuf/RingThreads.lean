import LockFreeRingBuf.RingQueue
import LockFreeRingBuf.Lib.Transition

/-!
# One producer and one consumer on a ring queue

The interleaving model: the operations of `RingQueue`, cut into their
accesses, performed by two threads in any order. A thread that is inside a
call holds the rest of that call's program; between calls it is idle, or
it holds what `reserve_1` or `peek` returned.

Two histories are kept beside the memory and never read by the code:
`published`, the values the producer has made visible, and `consumed`,
the values the consumer has read and released. A call *offers* values (the
argument of a push, or what stands in a reserved slot); the bump of `in`
publishes as many of them as it counts. Likewise the bump of `out`
releases as many of the values *taken* as it counts.
-/

namespace LockFreeRingBuf

open Resumption Transition

variable {T : Type}

structure Shared (T : Type) extends Fifo T where
  published : List T
  consumed : List T

/-! ## The producer -/

inductive ProducerCall (T : Type) where
  | tryPush (t : T)
  | waitPush (t : T)
  | push (ret : Nat → T) (n : CInt)
  | tryReserve1
  | reserve1
  | finish1

inductive ProducerAnswer where
  | verdict (b : Bool)
  | count (n : CInt)
  | slot (p : Option Nat)
  | done

/-- The program of a call; it ends with `none` where a `while` test sends it
back to its start. -/
def ProducerCall.body (elem : Element T) (capacity : Capacity) :
    ProducerCall T → QueueProg T (Option ProducerAnswer)
  | .tryPush t => (fun b => some (.verdict b)) <$> SpscQueue.tryPush capacity t
  | .waitPush t => (fun r => r.map fun _ => .done) <$> SpscQueue.waitPush capacity t
  | .push ret n => (fun n => some (.count n)) <$> SpscQueue.push elem capacity ret n
  | .tryReserve1 => (fun p => some (.slot p)) <$> SpscQueue.tryReserve1 capacity
  | .reserve1 => (fun r => r.map fun p => .slot (some p)) <$> SpscQueue.reserve1 capacity
  | .finish1 => (fun _ => some .done) <$> SpscQueue.finish1

/-- The first `n` elements of a caller's array. -/
def firstN (ret : Nat → T) (n : Nat) : List T := (List.range n).map ret

@[simp] theorem firstN_length (ret : Nat → T) (n : Nat) : (firstN ret n).length = n := by
  simp [firstN]

theorem firstN_getElem? (ret : Nat → T) {n i : Nat} (h : i < n) :
    (firstN ret n)[i]? = some (ret i) := by
  simp [firstN, h]

inductive Producer (T : Type) where
  | idle
  /-- Inside call `c`, with the values still offered and the program to go. -/
  | running (c : ProducerCall T) (offer : List T) (p : QueueProg T (Option ProducerAnswer))
  /-- Holding the pointer `reserve_1` returned; `value` is what the producer
  knows to stand there. -/
  | reserved (slot : Nat) (value : T)

def Producer.offer : Producer T → List T
  | .idle => []
  | .running _ offer _ => offer
  | .reserved _ value => [value]

/-- What a call offers, if the thread may make it now: `finish_1` follows a
reservation, every other call an idle thread. -/
def Producer.offers : Producer T → ProducerCall T → Option (List T)
  | .idle, .tryPush t => some [t]
  | .idle, .waitPush t => some [t]
  | .idle, .push ret n => some (firstN ret n.toNat)
  | .idle, .tryReserve1 => some []
  | .idle, .reserve1 => some []
  | .reserved _ value, .finish1 => some [value]
  | _, _ => none

theorem Producer.offers_cases {p : Producer T} {c : ProducerCall T} {offer : List T}
    (h : p.offers c = some offer) :
    Producer.idle.offers c = some offer
      ∨ ∃ i v, p = .reserved i v ∧ c = .finish1 ∧ offer = [v] := by
  cases p with
  | idle => exact .inl h
  | running => cases h
  | reserved i v =>
      cases c with
      | finish1 => exact .inr ⟨i, v, rfl, rfl, (Option.some.inj h).symm⟩
      | _ => cases h

inductive ProducerCmd (T : Type) where
  | call (c : ProducerCall T)
  | step
  /-- A write through the reserved pointer, such as an assignment to one field. -/
  | write (f : T → T)

/-- One access by the producer: `writeIn` publishes. -/
def Shared.produce (elem : Element T) (offer : List T) :
    Access T → Shared T → Shared T × List T
  | .writeIn v, s =>
    let n := (v - s.in_).toNat
    ({ s with in_ := v, published := s.published ++ offer.take n }, offer.drop n)
  | a, s => ({ s with toFifo := (s.toFifo.perform elem a).2 }, offer)

/-! ## The consumer -/

inductive ConsumerCall (T : Type) where
  | pop (t : T)
  | popBulk (ret : Nat → T) (n : CInt)
  | peek (max : Unsigned)
  | consume (n : Unsigned)

inductive ConsumerAnswer (T : Type) where
  | popped (b : Bool) (t : T)
  | batch (n : CInt) (ret : Nat → T)
  | peeked (n : CInt) (p : Nat)
  | done

def ConsumerCall.body (elem : Element T) (capacity : Capacity) :
    ConsumerCall T → QueueProg T (ConsumerAnswer T)
  | .pop t => (fun r => .popped r.1 r.2) <$> SpscQueue.pop capacity t
  | .popBulk ret n => (fun r => .batch r.1 r.2) <$> SpscQueue.popBulk elem capacity ret n
  | .peek max => (fun r => .peeked r.1 r.2) <$> SpscQueue.peek capacity max
  | .consume n => (fun _ => .done) <$> SpscQueue.consume n

inductive Consumer (T : Type) where
  | idle
  /-- Inside call `c`, with the values taken and not released and the program
  to go. -/
  | running (c : ConsumerCall T) (taken : List T) (p : QueueProg T (ConsumerAnswer T))
  /-- Holding `*n` and the pointer that `peek` returned, advanced past the
  values taken so far. -/
  | peeked (n : CInt) (p : Nat) (taken : List T)

def Consumer.taken : Consumer T → List T
  | .idle => []
  | .running _ taken _ => taken
  | .peeked _ _ taken => taken

/-- What is already taken when a call starts, if the thread may make it now:
`consume(k)` follows a `peek` of which at least `k` slots have been read. -/
def Consumer.starts : Consumer T → ConsumerCall T → Option (List T)
  | .idle, .pop _ => some []
  | .idle, .popBulk _ _ => some []
  | .idle, .peek _ => some []
  | .peeked _ _ taken, .consume k => if k.toNat ≤ taken.length then some taken else none
  | _, _ => none

theorem Consumer.starts_idle {c : ConsumerCall T} {taken : List T}
    (h : Consumer.idle.starts c = some taken) : taken = [] := by
  cases c with
  | consume => cases h
  | _ => exact (Option.some.inj h).symm

theorem Consumer.starts_cases {s : Consumer T} {c : ConsumerCall T} {taken : List T}
    (h : s.starts c = some taken) :
    (s = .idle ∧ Consumer.idle.starts c = some taken)
      ∨ ∃ n p k, s = .peeked n p taken ∧ c = .consume k ∧ k.toNat ≤ taken.length := by
  cases s with
  | idle => exact .inl ⟨rfl, h⟩
  | running => cases h
  | peeked n p taken' =>
      cases c with
      | consume k =>
          obtain ⟨hk, heq⟩ := Option.ite_none_right_eq_some.mp h
          obtain rfl := Option.some.inj heq
          exact .inr ⟨n, p, k, rfl, rfl, hk⟩
      | _ => cases h

inductive ConsumerCmd (T : Type) where
  | call (c : ConsumerCall T)
  | step
  /-- Read the slot under the pointer and leave the pointer there. -/
  | look
  /-- Read the slot under the pointer and advance the pointer. -/
  | read
  /-- Give the peeked slots up without `consume`. -/
  | drop

/-- One access by the consumer: slot reads take, `writeOut` releases. -/
def Shared.release (elem : Element T) (taken : List T) :
    (a : Access T) → a.Answer → Shared T → Shared T × List T
  | .readSlot i, t, s =>
    ({ s with toFifo := (s.toFifo.perform elem (.readSlot i)).2 }, taken ++ [t])
  | .moveSlot i, t, s =>
    ({ s with toFifo := (s.toFifo.perform elem (.moveSlot i)).2 }, taken ++ [t])
  | .writeOut v, _, s =>
    let n := (v - s.out).toNat
    ({ s with out := v, consumed := s.consumed ++ taken.take n }, taken.drop n)
  | a, _, s => ({ s with toFifo := (s.toFifo.perform elem a).2 }, taken)

/-! ## The system -/

structure Config (T : Type) where
  shared : Shared T
  producer : Producer T
  consumer : Consumer T

section

variable (elem : Element T) (capacity : Capacity)

def Config.producerStep (s : Config T) : ProducerCmd T → Option (Config T)
  | .call c => (s.producer.offers c).map fun offer =>
      { s with producer := .running c offer (c.body elem capacity) }
  | .step =>
    match s.producer with
    | .running c offer (.act a k) =>
        let r := (s.shared.toFifo.perform elem a).1
        let (shared, offer) := s.shared.produce elem offer a
        some { s with shared, producer := .running c offer (k r) }
    | .running c offer (.ret none) =>
        some { s with producer := .running c offer (c.body elem capacity) }
    | .running _ _ (.ret (some (.slot (some p)))) =>
        some { s with producer := .reserved p (s.shared.arr p) }
    | .running _ _ (.ret (some _)) => some { s with producer := .idle }
    | _ => none
  | .write f =>
    match s.producer with
    | .reserved p value =>
        some { s with
          shared := { s.shared with arr := setSlot s.shared.arr p (f (s.shared.arr p)) }
          producer := .reserved p (f value) }
    | _ => none

def Config.consumerStep (s : Config T) : ConsumerCmd T → Option (Config T)
  | .call c => (s.consumer.starts c).map fun taken =>
      { s with consumer := .running c taken (c.body elem capacity) }
  | .step =>
    match s.consumer with
    | .running c taken (.act a k) =>
        let r := (s.shared.toFifo.perform elem a).1
        let (shared, taken) := s.shared.release elem taken a r
        some { s with shared, consumer := .running c taken (k r) }
    | .running _ _ (.ret (.peeked n p)) => some { s with consumer := .peeked n p [] }
    | .running _ _ (.ret _) => some { s with consumer := .idle }
    | _ => none
  | .look =>
    match s.consumer with
    | .peeked n _ taken => if (taken.length : Int) < n.toInt then some s else none
    | _ => none
  | .read =>
    match s.consumer with
    | .peeked n p taken =>
        if (taken.length : Int) < n.toInt then
          some { s with
            consumer := .peeked n (SpscQueue.walk capacity p) (taken ++ [s.shared.arr p]) }
        else none
    | _ => none
  | .drop =>
    match s.consumer with
    | .peeked _ _ _ => some { s with consumer := .idle }
    | _ => none

/-- Everything a command of the producer can do. -/
inductive Config.ProducerMoves (s : Config T) : ProducerCmd T → Config T → Prop
  | call {c offer} : s.producer.offers c = some offer →
      ProducerMoves s (.call c) { s with producer := .running c offer (c.body elem capacity) }
  | access {c offer a k} : s.producer = .running c offer (.act a k) →
      ProducerMoves s .step { s with
        shared := (s.shared.produce elem offer a).1
        producer := .running c (s.shared.produce elem offer a).2
          (k (s.shared.toFifo.perform elem a).1) }
  | again {c offer} : s.producer = .running c offer (.ret none) →
      ProducerMoves s .step { s with producer := .running c offer (c.body elem capacity) }
  | reserve {c offer p} : s.producer = .running c offer (.ret (some (.slot (some p)))) →
      ProducerMoves s .step { s with producer := .reserved p (s.shared.arr p) }
  | leave {c offer ans} : s.producer = .running c offer (.ret (some ans)) →
      (∀ p, ans ≠ .slot (some p)) → ProducerMoves s .step { s with producer := .idle }
  | write {p value f} : s.producer = .reserved p value →
      ProducerMoves s (.write f) { s with
        shared := { s.shared with arr := setSlot s.shared.arr p (f (s.shared.arr p)) }
        producer := .reserved p (f value) }

theorem Config.producerStep_moves {s s' : Config T} {cmd : ProducerCmd T}
    (h : s.producerStep elem capacity cmd = some s') :
    s.ProducerMoves elem capacity cmd s' := by
  cases cmd with
  | call c =>
      obtain ⟨offer, hoffer, rfl⟩ := Option.map_eq_some_iff.mp h
      exact .call hoffer
  | step =>
      simp only [producerStep] at h
      split at h
      · next c offer a k hp => obtain rfl := Option.some.inj h; exact .access hp
      · next c offer hp => obtain rfl := Option.some.inj h; exact .again hp
      · next c offer p hp => obtain rfl := Option.some.inj h; exact .reserve hp
      · next c offer ans hans hp =>
          obtain rfl := Option.some.inj h
          exact .leave hp hans
      · cases h
  | write f =>
      simp only [producerStep] at h
      split at h
      · next p value hp => obtain rfl := Option.some.inj h; exact .write hp
      · cases h

theorem Config.ProducerMoves.consumer_eq {s s' : Config T} {cmd : ProducerCmd T}
    (h : s.ProducerMoves elem capacity cmd s') : s'.consumer = s.consumer := by
  cases h <;> rfl

/-- The producer consumes nothing, and only adds to what it has published. -/
theorem Config.ProducerMoves.frame {s s' : Config T} {cmd : ProducerCmd T}
    (h : s.ProducerMoves elem capacity cmd s') :
    s'.shared.consumed = s.shared.consumed ∧ s.shared.published <+: s'.shared.published := by
  cases h with
  | @access c offer a k hp =>
      cases a with
      | writeIn v => exact ⟨rfl, List.prefix_append _ _⟩
      | _ => exact ⟨rfl, List.prefix_rfl⟩
  | _ => exact ⟨rfl, List.prefix_rfl⟩

/-- Everything a command of the consumer can do. -/
inductive Config.ConsumerMoves (s : Config T) : ConsumerCmd T → Config T → Prop
  | call {c taken} : s.consumer.starts c = some taken →
      ConsumerMoves s (.call c) { s with consumer := .running c taken (c.body elem capacity) }
  | access {c taken a k} : s.consumer = .running c taken (.act a k) →
      ConsumerMoves s .step { s with
        shared := (s.shared.release elem taken a (s.shared.toFifo.perform elem a).1).1
        consumer := .running c (s.shared.release elem taken a (s.shared.toFifo.perform elem a).1).2
          (k (s.shared.toFifo.perform elem a).1) }
  | peek {c taken n p} : s.consumer = .running c taken (.ret (.peeked n p)) →
      ConsumerMoves s .step { s with consumer := .peeked n p [] }
  | leave {c taken ans} : s.consumer = .running c taken (.ret ans) →
      (∀ n p, ans ≠ .peeked n p) → ConsumerMoves s .step { s with consumer := .idle }
  | look {n p taken} : s.consumer = .peeked n p taken → (taken.length : Int) < n.toInt →
      ConsumerMoves s .look s
  | read {n p taken} : s.consumer = .peeked n p taken → (taken.length : Int) < n.toInt →
      ConsumerMoves s .read { s with
        consumer := .peeked n (SpscQueue.walk capacity p) (taken ++ [s.shared.arr p]) }
  | drop {n p taken} : s.consumer = .peeked n p taken →
      ConsumerMoves s .drop { s with consumer := .idle }

theorem Config.consumerStep_moves {s s' : Config T} {cmd : ConsumerCmd T}
    (h : s.consumerStep elem capacity cmd = some s') :
    s.ConsumerMoves elem capacity cmd s' := by
  cases cmd with
  | call c =>
      obtain ⟨taken, htaken, rfl⟩ := Option.map_eq_some_iff.mp h
      exact .call htaken
  | step =>
      simp only [consumerStep] at h
      split at h
      · next c taken a k hc => obtain rfl := Option.some.inj h; exact .access hc
      · next c taken n p hc => obtain rfl := Option.some.inj h; exact .peek hc
      · next c taken ans hans hc =>
          obtain rfl := Option.some.inj h
          exact .leave hc hans
      · cases h
  | look =>
      simp only [consumerStep] at h
      split at h
      · next n p taken hc =>
          obtain ⟨hlt, heq⟩ := Option.ite_none_right_eq_some.mp h
          obtain rfl := Option.some.inj heq
          exact .look hc hlt
      · cases h
  | read =>
      simp only [consumerStep] at h
      split at h
      · next n p taken hc =>
          obtain ⟨hlt, heq⟩ := Option.ite_none_right_eq_some.mp h
          obtain rfl := Option.some.inj heq
          exact .read hc hlt
      · cases h
  | drop =>
      simp only [consumerStep] at h
      split at h
      · next n p taken hc => obtain rfl := Option.some.inj h; exact .drop hc
      · cases h

theorem Config.ConsumerMoves.producer_eq {s s' : Config T} {cmd : ConsumerCmd T}
    (h : s.ConsumerMoves elem capacity cmd s') : s'.producer = s.producer := by
  cases h <;> rfl

/-- The consumer publishes nothing. -/
theorem Config.ConsumerMoves.published_eq {s s' : Config T} {cmd : ConsumerCmd T}
    (h : s.ConsumerMoves elem capacity cmd s') : s'.shared.published = s.shared.published := by
  cases h with
  | @access c taken a k hc => cases a <;> rfl
  | _ => rfl

inductive Cmd (T : Type) where
  | producer (c : ProducerCmd T)
  | consumer (c : ConsumerCmd T)

def Config.step : Cmd T → Config T → Option (Config T)
  | .producer c, s => s.producerStep elem capacity c
  | .consumer c, s => s.consumerStep elem capacity c

end

/-- The constructor's state: empty, with unspecified slots. -/
def Config.fresh (arr : Nat → T) : Config T where
  shared := { in_ := 0#32, out := 0#32, arr, published := [], consumed := [] }
  producer := .idle
  consumer := .idle

/-- The queue shared by one producer and one consumer. -/
def ringSystem (elem : Element T) (capacity : Capacity) : System (Cmd T) (Config T) where
  init s := ∃ arr, s = .fresh arr
  step := Config.step elem capacity

end LockFreeRingBuf
