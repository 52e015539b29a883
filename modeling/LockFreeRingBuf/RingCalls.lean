import LockFreeRingBuf.RingIntegrity

/-!
# Single calls, followed by their steps

What the integrity of the ring says of one call at a time, for a caller
that is followed step by step: `peek` takes nothing, reads through its
pointer take one value each, `consume` turns the values taken into values
consumed; `reserve_1` publishes nothing, `finish_1` publishes its offer.
-/

namespace LockFreeRingBuf

open Resumption Transition

/-! ## Programs that take nothing -/

/-- A program that only reads the counters. -/
def ReadsCounters {T α : Type} : QueueProg T α → Prop
  | .ret _ => True
  | .act a k => (a = .readIn ∨ a = .readOut) ∧ ∀ r, ReadsCounters (k r)

variable {T : Type} {elem : Element T} {capacity : Capacity}

theorem readsCounters_peek (max : Unsigned) :
    ReadsCounters ((ConsumerCall.peek max).body elem capacity) :=
  ⟨.inl rfl, fun _ => ⟨.inr rfl, fun _ => ⟨.inr rfl, fun _ => trivial⟩⟩⟩

theorem readsCounters_reserve1 :
    ReadsCounters (ProducerCall.reserve1.body elem capacity) := by
  refine ⟨.inl rfl, fun in_ => ⟨.inr rfl, fun out => ?_⟩⟩
  dsimp only [Prog.bind]
  split
  · exact trivial
  · exact ⟨.inl rfl, fun _ => trivial⟩

/-! ## A call of `consume` -/

/-- What the consumer has consumed, and then what it has taken. -/
def Config.collected (r : Config T) : List T := r.shared.consumed ++ r.consumer.taken

/-- The consumer is inside `consume(n)`, having read `n` slots. -/
inductive Consuming (elem : Element T) (capacity : Capacity) (n : CInt) (r : Config T) : Prop
  | start {taken} : taken.length = n.toNat →
      r.consumer = .running (.consume n) taken ((ConsumerCall.consume n).body elem capacity) →
      Consuming elem capacity n r
  | bump {taken} : taken.length = n.toNat →
      r.consumer = .running (.consume n) taken
        (.act (.writeOut (BitVec.ofNat 32 r.shared.consumed.length + n)) fun _ => .ret .done) →
      Consuming elem capacity n r
  | bumped : r.consumer = .running (.consume n) [] (.ret .done) → Consuming elem capacity n r

theorem Consuming.congr {n : CInt} {r r' : Config T} (h : Consuming elem capacity n r)
    (hc : r'.consumer = r.consumer) (hs : r'.shared.consumed = r.shared.consumed) :
    Consuming elem capacity n r' := by
  cases h with
  | start hn h => exact .start hn (hc.trans h)
  | bump hn h => exact .bump hn (hc.trans (by rw [hs]; exact h))
  | bumped h => exact .bumped (hc.trans h)

theorem consume_body (n : Unsigned) :
    (ConsumerCall.consume n).body elem capacity
      = .act .readOut fun out => .act (.writeOut (out + n)) fun _ => .ret .done := rfl

/-- Bumping `out` by the number of values taken releases them all. -/
theorem release_all (elem : Element T) {s : Shared T} (h : Counters capacity s) {n : Unsigned}
    {taken : List T} (hn : taken.length = n.toNat) :
    s.release elem taken (.writeOut (BitVec.ofNat 32 s.consumed.length + n)) ()
      = ({ s with
          out := BitVec.ofNat 32 s.consumed.length + n, consumed := s.consumed ++ taken }, []) := by
  have hbump : (BitVec.ofNat 32 s.consumed.length + n - s.out).toNat = taken.length := by
    rw [h.out_eq, BitVec.add_comm, BitVec.add_sub_cancel, hn]
  simp only [Shared.release, hbump, List.take_length, List.drop_length]

/-- A step inside `consume(n)` either stays inside or returns, and nothing is
lost between the values taken and the values consumed. -/
theorem Consuming.step {n : CInt} {r r' : Config T} (h : Consuming elem capacity n r)
    (hcount : Counters capacity r.shared) (hstep : r.ConsumerMoves elem capacity .step r') :
    (Consuming elem capacity n r' ∨ r'.consumer = .idle) ∧ r'.collected = r.collected := by
  simp only [Config.collected]
  cases h with
  | @start taken hn h =>
      rw [consume_body] at h
      cases hstep with
      | access hc =>
          obtain ⟨rfl, rfl, hp⟩ := Consumer.running.inj (hc.symm.trans h)
          obtain ⟨rfl, hk⟩ := Prog.act.inj hp
          obtain rfl := eq_of_heq hk
          refine ⟨.inl (.bump hn ?_), by rw [h]; rfl⟩
          exact congrArg (fun out => Consumer.running _ _
            (.act (.writeOut (out + n)) fun _ => .ret .done)) hcount.out_eq
      | peek hc | leave hc _ => cases (Consumer.running.inj (hc.symm.trans h)).2.2
  | @bump taken hn h =>
      cases hstep with
      | access hc =>
          obtain ⟨rfl, rfl, hp⟩ := Consumer.running.inj (hc.symm.trans h)
          obtain ⟨rfl, hk⟩ := Prog.act.inj hp
          obtain rfl := eq_of_heq hk
          have hrelease := release_all elem hcount hn
          refine ⟨.inl (.bumped ?_), ?_⟩
          · exact congrArg (fun taken => Consumer.running _ taken (.ret .done))
              (congrArg Prod.snd hrelease)
          · rw [h]
            exact (congrArg (fun x => x.1.consumed ++ x.2) hrelease).trans (List.append_nil _)
      | peek hc | leave hc _ => cases (Consumer.running.inj (hc.symm.trans h)).2.2
  | bumped h =>
      cases hstep with
      | access hc => cases (Consumer.running.inj (hc.symm.trans h)).2.2
      | peek hc => cases Prog.ret.inj (Consumer.running.inj (hc.symm.trans h)).2.2
      | leave hc _ => exact ⟨.inr rfl, by rw [h]; rfl⟩

/-! ## The other calls -/

theorem peek_calls {r r' : Config T} {max : Unsigned} (h : r.consumer = .idle)
    (hstep : r.ConsumerMoves elem capacity (.call (.peek max)) r') :
    (∃ p, r'.consumer = .running (.peek max) [] p ∧ ReadsCounters p)
      ∧ r'.collected = r.collected := by
  cases hstep with
  | call htaken =>
      rw [h] at htaken
      obtain rfl := Consumer.starts_idle htaken
      refine ⟨⟨_, rfl, readsCounters_peek max⟩, ?_⟩
      rw [Config.collected, Config.collected, h]
      rfl

/-- Inside `peek` nothing is taken or released. -/
theorem peek_steps {r r' : Config T} {max : Unsigned} {p : QueueProg T (ConsumerAnswer T)}
    (hreach : (ringSystem elem capacity).Reachable r)
    (h : r.consumer = .running (.peek max) [] p) (hp : ReadsCounters p)
    (hstep : r.ConsumerMoves elem capacity .step r') :
    ((∃ p, r'.consumer = .running (.peek max) [] p ∧ ReadsCounters p)
        ∨ ∃ n i, r'.consumer = .peeked n i [] ∧ n.toNat ≤ max.toNat)
      ∧ r'.collected = r.collected := by
  simp only [Config.collected, h]
  cases hstep with
  | access hc =>
      obtain ⟨rfl, rfl, rfl⟩ := Consumer.running.inj (hc.symm.trans h)
      rcases hp with ⟨rfl | rfl, hk⟩
      · exact ⟨.inl ⟨_, rfl, hk _⟩, rfl⟩
      · exact ⟨.inl ⟨_, rfl, hk _⟩, rfl⟩
  | peek hc =>
      obtain ⟨rfl, rfl, rfl⟩ := Consumer.running.inj (hc.symm.trans h)
      obtain ⟨n, i, heq, hn⟩ := peek_answer hreach hc
      obtain ⟨rfl, rfl⟩ := ConsumerAnswer.peeked.inj heq
      exact ⟨.inr ⟨_, _, rfl, hn⟩, rfl⟩
  | leave hc hans =>
      obtain ⟨rfl, rfl, rfl⟩ := Consumer.running.inj (hc.symm.trans h)
      obtain ⟨n, i, heq, -⟩ := peek_answer hreach hc
      exact absurd heq (hans n i)

theorem drop_steps {r r' : Config T} {n : CInt} {p : Nat} (h : r.consumer = .peeked n p [])
    (hstep : r.ConsumerMoves elem capacity .drop r') :
    r'.consumer = .idle ∧ r'.collected = r.collected := by
  cases hstep with
  | drop => exact ⟨rfl, by rw [Config.collected, Config.collected, h]; rfl⟩

/-- Reading through the pointer takes the value that stands there. -/
theorem read_steps {r r' : Config T} {n : CInt} {p : Nat} {taken : List T}
    (h : r.consumer = .peeked n p taken) (hstep : r.ConsumerMoves elem capacity .read r') :
    r'.consumer = .peeked n (SpscQueue.walk capacity p) (taken ++ [r.shared.arr p])
      ∧ r'.shared = r.shared ∧ r'.collected = r.collected ++ [r.shared.arr p] := by
  cases hstep with
  | read hc _ =>
      obtain ⟨rfl, rfl, rfl⟩ := Consumer.peeked.inj (hc.symm.trans h)
      refine ⟨rfl, rfl, ?_⟩
      rw [Config.collected, Config.collected, h]
      exact (List.append_assoc _ _ _).symm

theorem consume_calls {r r' : Config T} {n k : CInt} {p : Nat} {taken : List T}
    (h : r.consumer = .peeked n p taken) (hk : taken.length = k.toNat)
    (hstep : r.ConsumerMoves elem capacity (.call (.consume k)) r') :
    Consuming elem capacity k r' ∧ r'.collected = r.collected := by
  cases hstep with
  | call htaken =>
      rw [h] at htaken
      obtain ⟨-, heq⟩ := Option.ite_none_right_eq_some.mp htaken
      obtain rfl := Option.some.inj heq
      exact ⟨.start hk rfl, by rw [Config.collected, Config.collected, h]; rfl⟩

theorem reserve_calls {r r' : Config T} (h : r.producer = .idle)
    (hstep : r.ProducerMoves elem capacity (.call .reserve1) r') :
    (∃ p, r'.producer = .running .reserve1 [] p ∧ ReadsCounters p)
      ∧ r'.shared.published = r.shared.published := by
  cases hstep with
  | call hoffer =>
      rw [h] at hoffer
      obtain rfl := Option.some.inj hoffer
      exact ⟨⟨_, rfl, readsCounters_reserve1⟩, rfl⟩

/-- Inside `reserve_1` nothing is published, and it returns a slot. -/
theorem reserve_steps {r r' : Config T} {p : QueueProg T (Option ProducerAnswer)}
    (hreach : (ringSystem elem capacity).Reachable r)
    (h : r.producer = .running .reserve1 [] p) (hp : ReadsCounters p)
    (hstep : r.ProducerMoves elem capacity .step r') :
    ((∃ p, r'.producer = .running .reserve1 [] p ∧ ReadsCounters p)
        ∨ ∃ i v, r'.producer = .reserved i v)
      ∧ r'.shared.published = r.shared.published := by
  cases hstep with
  | access hc =>
      obtain ⟨rfl, rfl, rfl⟩ := Producer.running.inj (hc.symm.trans h)
      rcases hp with ⟨rfl | rfl, hk⟩
      · exact ⟨.inl ⟨_, rfl, hk _⟩, rfl⟩
      · exact ⟨.inl ⟨_, rfl, hk _⟩, rfl⟩
  | again hc =>
      obtain ⟨rfl, rfl, rfl⟩ := Producer.running.inj (hc.symm.trans h)
      exact ⟨.inl ⟨_, rfl, readsCounters_reserve1⟩, rfl⟩
  | reserve hc => exact ⟨.inr ⟨_, _, rfl⟩, rfl⟩
  | leave hc hans =>
      obtain ⟨rfl, rfl, rfl⟩ := Producer.running.inj (hc.symm.trans h)
      obtain ⟨i, heq⟩ := reserve1_answer hreach hc
      exact absurd heq (hans i)

/-- What an access publishes leaves the offer. -/
theorem produce_append (s : Shared T) (offer : List T) (a : Access T) :
    (s.produce elem offer a).1.published ++ (s.produce elem offer a).2 = s.published ++ offer := by
  cases a with
  | writeIn v => simp only [Shared.produce, List.append_assoc, List.take_append_drop]
  | _ => rfl

theorem write_steps {r r' : Config T} {i : Nat} {v : T} {f : T → T}
    (h : r.producer = .reserved i v) (hstep : r.ProducerMoves elem capacity (.write f) r') :
    r'.producer = .reserved i (f v) ∧ r'.shared.published = r.shared.published := by
  cases hstep with
  | write hp =>
      obtain ⟨rfl, rfl⟩ := Producer.reserved.inj (hp.symm.trans h)
      exact ⟨rfl, rfl⟩

theorem finish_calls {r r' : Config T} {i : Nat} {v : T} (h : r.producer = .reserved i v)
    (hstep : r.ProducerMoves elem capacity (.call .finish1) r') :
    (∃ p, r'.producer = .running .finish1 [v] p) ∧ r'.shared.published = r.shared.published := by
  cases hstep with
  | call hoffer =>
      rw [h] at hoffer
      obtain rfl := Option.some.inj hoffer
      exact ⟨⟨_, rfl⟩, rfl⟩

/-- `finish_1` publishes its offer by the time it returns. -/
theorem finish_steps {r r' : Config T} {offer : List T}
    {p : QueueProg T (Option ProducerAnswer)}
    (hreach : (ringSystem elem capacity).Reachable r)
    (h : r.producer = .running .finish1 offer p)
    (hstep : r.ProducerMoves elem capacity .step r') :
    (∃ offer' p, r'.producer = .running .finish1 offer' p
        ∧ r'.shared.published ++ offer' = r.shared.published ++ offer)
      ∨ r'.producer = .idle ∧ r'.shared.published = r.shared.published ++ offer := by
  cases hstep with
  | access hc =>
      obtain ⟨rfl, rfl, rfl⟩ := Producer.running.inj (hc.symm.trans h)
      exact .inl ⟨_, _, rfl, produce_append _ _ _⟩
  | again hc | reserve hc =>
      obtain ⟨rfl, rfl, rfl⟩ := Producer.running.inj (hc.symm.trans h)
      cases (finish1_answer hreach hc).1
  | leave hc hans =>
      obtain ⟨rfl, rfl, rfl⟩ := Producer.running.inj (hc.symm.trans h)
      obtain rfl := (finish1_answer hreach hc).2
      exact .inr ⟨rfl, (List.append_nil _).symm⟩

end LockFreeRingBuf
