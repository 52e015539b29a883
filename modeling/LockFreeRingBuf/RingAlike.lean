import LockFreeRingBuf.RingThreads

/-!
# Two rings in step

The calls that work in place, `reserve_1`, `finish_1`, `peek` and
`consume`, read and write the counters and no slot. So two rings whose
counters agree, whatever stands in their slots, make the same steps of
these calls, and a slot changes only by a write through the reserved
pointer: what relates the slots of two rings, each to its own, and is kept
by these writes is kept by every step.
-/

namespace LockFreeRingBuf

open Resumption Transition

variable {T α : Type} (elem : Element T) (capacity : Capacity)

/-! ## Calls in place -/

@[simp] def Access.onCounters : Access T → Bool
  | .readIn => true
  | .readOut => true
  | .writeIn _ => true
  | .writeOut _ => true
  | _ => false

/-- A program that touches no slot. -/
def OnCounters : QueueProg T α → Prop
  | .ret _ => True
  | .act a k => a.onCounters = true ∧ ∀ r, OnCounters (k r)

@[simp] def ProducerCall.inPlace : ProducerCall T → Bool
  | .reserve1 => true
  | .finish1 => true
  | _ => false

@[simp] def ConsumerCall.inPlace : ConsumerCall T → Bool
  | .peek _ => true
  | .consume _ => true
  | _ => false

theorem ProducerCall.body_onCounters {c : ProducerCall T} (h : c.inPlace = true) :
    OnCounters (c.body elem capacity) := by
  cases c with
  | reserve1 =>
      refine ⟨rfl, fun in_ => ⟨rfl, fun out => ?_⟩⟩
      dsimp only [Prog.bind]
      split
      · exact trivial
      · exact ⟨rfl, fun _ => trivial⟩
  | finish1 => exact ⟨rfl, fun _ => ⟨rfl, fun _ => trivial⟩⟩
  | _ => cases h

theorem ConsumerCall.body_onCounters {c : ConsumerCall T} (h : c.inPlace = true) :
    OnCounters (c.body elem capacity) := by
  cases c with
  | peek => exact ⟨rfl, fun _ => ⟨rfl, fun _ => ⟨rfl, fun _ => trivial⟩⟩⟩
  | consume => exact ⟨rfl, fun _ => ⟨rfl, fun _ => trivial⟩⟩
  | _ => cases h

/-! ## The relation -/

inductive Producer.Alike : Producer T → Producer T → Prop
  | idle : Alike .idle .idle
  | running {c offer offer' p} : c.inPlace = true → OnCounters p →
      Alike (.running c offer p) (.running c offer' p)
  | reserved {i v v'} : Alike (.reserved i v) (.reserved i v')

inductive Consumer.Alike : Consumer T → Consumer T → Prop
  | idle : Alike .idle .idle
  | running {c taken taken' p} : OnCounters p → taken.length = taken'.length →
      Alike (.running c taken p) (.running c taken' p)
  | peeked {n p taken taken'} : taken.length = taken'.length →
      Alike (.peeked n p taken) (.peeked n p taken')

/-- `rel i` relates what stands in slot `i` of one to what stands in slot `i`
of the other. -/
structure Shared.Alike (rel : Nat → T → T → Prop) (s s' : Shared T) : Prop where
  in_ : s.in_ = s'.in_
  out : s.out = s'.out
  arr : ∀ i, rel i (s.arr i) (s'.arr i)

structure Config.Alike (rel : Nat → T → T → Prop) (r r' : Config T) : Prop where
  shared : r.shared.Alike rel r'.shared
  producer : r.producer.Alike r'.producer
  consumer : r.consumer.Alike r'.consumer

/-- The command calls in place, or writes what keeps the relation. -/
def ProducerCmd.Keeps (rel : Nat → T → T → Prop) : ProducerCmd T → Prop
  | .call c => c.inPlace = true
  | .step => True
  | .write f => ∀ i e e', rel i e e' → rel i (f e) (f e')

def ConsumerCmd.InPlace : ConsumerCmd T → Prop
  | .call c => c.inPlace = true
  | _ => True

/-! ## One access -/

variable {rel : Nat → T → T → Prop}

namespace Shared.Alike

variable {s s' : Shared T}

theorem answer (h : s.Alike rel s') {a : Access T} (ha : a.onCounters = true) :
    (s'.toFifo.perform elem a).1 = (s.toFifo.perform elem a).1 := by
  cases a with
  | readIn => exact h.in_.symm
  | readOut => exact h.out.symm
  | writeIn | writeOut => rfl
  | _ => cases ha

theorem produce (h : s.Alike rel s') {a : Access T} (ha : a.onCounters = true)
    (offer offer' : List T) :
    (s.produce elem offer a).1.Alike rel (s'.produce elem offer' a).1 := by
  cases a with
  | readIn | readOut => exact ⟨h.in_, h.out, h.arr⟩
  | writeIn => exact ⟨rfl, h.out, h.arr⟩
  | writeOut => exact ⟨h.in_, rfl, h.arr⟩
  | _ => cases ha

theorem release (h : s.Alike rel s') {a : Access T} (ha : a.onCounters = true) (r : a.Answer)
    {taken taken' : List T} (ht : taken.length = taken'.length) :
    (s.release elem taken a r).1.Alike rel (s'.release elem taken' a r).1
      ∧ (s.release elem taken a r).2.length = (s'.release elem taken' a r).2.length := by
  cases a with
  | readIn | readOut => exact ⟨⟨h.in_, h.out, h.arr⟩, ht⟩
  | writeIn => exact ⟨⟨rfl, h.out, h.arr⟩, ht⟩
  | writeOut v =>
      refine ⟨⟨h.in_, rfl, h.arr⟩, ?_⟩
      simp only [Shared.release, List.length_drop, h.out, ht]
  | _ => cases ha

/-- A write through the reserved pointer. -/
theorem write (h : s.Alike rel s') {f : T → T} (hf : ∀ i e e', rel i e e' → rel i (f e) (f e'))
    (p : Nat) :
    Shared.Alike rel { s with arr := setSlot s.arr p (f (s.arr p)) }
      { s' with arr := setSlot s'.arr p (f (s'.arr p)) } := by
  refine ⟨h.in_, h.out, fun i => ?_⟩
  by_cases hi : i = p
  · subst hi
    simpa only [setSlot_self] using hf i _ _ (h.arr i)
  · simpa only [setSlot_of_ne _ hi] using h.arr i

end Shared.Alike

/-! ## One step -/

namespace Config.Alike

variable {r r' : Config T}

theorem producerStep (h : r.Alike rel r') {c : ProducerCmd T} (hc : c.Keeps rel) :
    Option.Rel (Config.Alike rel) (r.producerStep elem capacity c)
      (r'.producerStep elem capacity c) := by
  obtain ⟨shared, producer, consumer⟩ := r
  obtain ⟨shared', producer', consumer'⟩ := r'
  obtain ⟨hshared, hproducer, hconsumer⟩ := h
  cases c with
  | call c =>
      have hbody := ProducerCall.body_onCounters elem capacity hc
      cases hproducer with
      | idle =>
          cases c with
          | reserve1 => exact .some ⟨hshared, .running hc hbody, hconsumer⟩
          | finish1 => exact .none
          | _ => cases hc
      | running => exact .none
      | reserved =>
          cases c with
          | finish1 => exact .some ⟨hshared, .running hc hbody, hconsumer⟩
          | reserve1 => exact .none
          | _ => cases hc
  | step =>
      cases hproducer with
      | idle => exact .none
      | reserved => exact .none
      | @running c offer offer' p hcall hp =>
          cases p with
          | act a k =>
              have hanswer := hshared.answer elem hp.1
              simp only [Config.producerStep, hanswer]
              exact .some ⟨hshared.produce elem hp.1 _ _, .running hcall (hp.2 _), hconsumer⟩
          | ret answer =>
              cases answer with
              | none =>
                  exact .some ⟨hshared, .running hcall (ProducerCall.body_onCounters _ _ hcall),
                    hconsumer⟩
              | some answer =>
                  cases answer with
                  | slot p =>
                      cases p with
                      | none => exact .some ⟨hshared, .idle, hconsumer⟩
                      | some p => exact .some ⟨hshared, .reserved, hconsumer⟩
                  | _ => exact .some ⟨hshared, .idle, hconsumer⟩
  | write f =>
      cases hproducer with
      | reserved => exact .some ⟨hshared.write hc _, .reserved, hconsumer⟩
      | _ => exact .none

theorem consumerStep (h : r.Alike rel r') {c : ConsumerCmd T} (hc : c.InPlace) :
    Option.Rel (Config.Alike rel) (r.consumerStep elem capacity c)
      (r'.consumerStep elem capacity c) := by
  obtain ⟨shared, producer, consumer⟩ := r
  obtain ⟨shared', producer', consumer'⟩ := r'
  obtain ⟨hshared, hproducer, hconsumer⟩ := h
  cases c with
  | call c =>
      have hbody := ConsumerCall.body_onCounters elem capacity hc
      cases hconsumer with
      | idle =>
          cases c with
          | peek => exact .some ⟨hshared, hproducer, .running hbody rfl⟩
          | consume => exact .none
          | _ => cases hc
      | running => exact .none
      | @peeked n p taken taken' ht =>
          cases c with
          | consume k =>
              simp only [Config.consumerStep, Consumer.starts, ← ht]
              split
              · exact .some ⟨hshared, hproducer, .running hbody ht⟩
              · exact .none
          | peek => exact .none
          | _ => cases hc
  | step =>
      cases hconsumer with
      | idle => exact .none
      | peeked => exact .none
      | @running c taken taken' p hp ht =>
          cases p with
          | act a k =>
              have hanswer := hshared.answer elem hp.1
              simp only [Config.consumerStep, hanswer]
              obtain ⟨hnext, hlength⟩ := hshared.release elem hp.1
                (shared.toFifo.perform elem a).1 ht
              exact .some ⟨hnext, hproducer, .running (hp.2 _) hlength⟩
          | ret answer =>
              cases answer with
              | peeked n p => exact .some ⟨hshared, hproducer, .peeked rfl⟩
              | _ => exact .some ⟨hshared, hproducer, .idle⟩
  | look =>
      cases hconsumer with
      | @peeked n p taken taken' ht =>
          simp only [Config.consumerStep, ← ht]
          split
          · exact .some ⟨hshared, hproducer, .peeked ht⟩
          · exact .none
      | _ => exact .none
  | read =>
      cases hconsumer with
      | @peeked n p taken taken' ht =>
          simp only [Config.consumerStep, ← ht]
          split
          · exact .some ⟨hshared, hproducer, .peeked (by simp [ht])⟩
          · exact .none
      | _ => exact .none
  | drop =>
      cases hconsumer with
      | peeked => exact .some ⟨hshared, hproducer, .idle⟩
      | _ => exact .none

end Config.Alike

end LockFreeRingBuf
