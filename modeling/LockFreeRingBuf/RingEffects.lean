import LockFreeRingBuf.RingProgress
import LockFreeRingBuf.RingLocal

/-!
# Where a call takes effect

A call of the producer ends in one of two ways. Either it reads `out`, and
what it sees there settles its answer: the rest of the program reads its
own counter at most. Or it goes on to store values and to bump `in`, and
returns right after that. A call of the consumer is settled by reading
`in`, or goes on to take values and to bump `out`. So there is a single
access, in each call, at which the answer is decided and the elements of
the ring change if they do.
-/

namespace LockFreeRingBuf

open Resumption Transition

variable {T α β : Type} {elem : Element T} {capacity : Capacity}

/-! ## Settled programs -/

/-- The result of a program that reads nothing but `in`, which is `v`. -/
def settlesIn (v : Unsigned) : QueueProg T α → Option α
  | .ret x => some x
  | .act .readIn k => settlesIn v (k v)
  | _ => none

/-- The result of a program that reads nothing but `out`, which is `v`. -/
def settlesOut (v : Unsigned) : QueueProg T α → Option α
  | .ret x => some x
  | .act .readOut k => settlesOut v (k v)
  | _ => none

/-! ## Programs that publish or release -/

/-- A program of the producer, whose counter is `in_`, that stores values, bumps
`in` by some `x` and returns an answer, these two as `ok` says. -/
def Publishes (in_ : Unsigned) (ok : Unsigned → α → Prop) : QueueProg T α → Prop
  | .act .readIn k => Publishes in_ ok (k in_)
  | .act (.writeSlot _ _) k => Publishes in_ ok (k ())
  | .act (.writeIn v) k => ∃ x ans, v = in_ + x ∧ k () = .ret ans ∧ ok x ans
  | _ => False

/-- A program of the consumer, whose counter is `out`, that takes more values,
bumps `out` by some `x` and returns an answer, as `ok` says of all the values
taken and these two. -/
def Releases (out : Unsigned) (ok : List T → Unsigned → α → Prop) :
    List T → QueueProg T α → Prop
  | taken, .act .readOut k => Releases out ok taken (k out)
  | taken, .act (.readSlot _) k => ∀ t, Releases out ok (taken ++ [t]) (k t)
  | taken, .act (.moveSlot _) k => ∀ t, Releases out ok (taken ++ [t]) (k t)
  | taken, .act (.writeOut v) k => ∃ x ans, v = out + x ∧ k () = .ret ans ∧ ok taken x ans
  | _, _ => False

theorem Publishes.settlesIn {in_ : Unsigned} {ok : Unsigned → α → Prop} {p : QueueProg T α}
    (h : Publishes in_ ok p) : settlesIn in_ p = none := by
  induction p with
  | ret x => cases h
  | act a k ih =>
      cases a with
      | readIn => exact ih in_ h
      | _ => rfl

theorem Releases.settlesOut {out : Unsigned} {ok : List T → Unsigned → α → Prop} {taken : List T}
    {p : QueueProg T α} (h : Releases out ok taken p) : settlesOut out p = none := by
  induction p with
  | ret x => cases h
  | act a k ih =>
      cases a with
      | readOut => exact ih out h
      | _ => rfl

theorem storeSlots_publishes {in_ : Unsigned} {ok : Unsigned → α → Prop} {f : Unit → QueueProg T α}
    (ret : Nat → T) (dst src n : Nat) (hf : Publishes in_ ok (f ())) :
    Publishes in_ ok (storeSlots ret dst src n >>= f) := by
  induction n generalizing dst src with
  | zero => exact hf
  | succ n ih => exact ih _ _

theorem Publishes.map {in_ : Unsigned} {ok : Unsigned → α → Prop} {ok' : Unsigned → β → Prop}
    {p : QueueProg T α} (g : α → β) (h : Publishes in_ ok p)
    (hok : ∀ x a, ok x a → ok' x (g a)) : Publishes in_ ok' (g <$> p) := by
  induction p with
  | ret x => cases h
  | act a k ih =>
      cases a with
      | readIn => exact ih _ h
      | writeSlot i t => exact ih _ h
      | writeIn v =>
          obtain ⟨x, a, hv, hk, hxa⟩ := h
          exact ⟨x, g a, hv, congrArg (g <$> ·) hk, hok x a hxa⟩
      | _ => cases h

/-! ## The producer's calls -/

/-- The answers that leave the elements as they are, when `free` slots are seen to
be free. -/
def ProducerCall.Sees (free : Unsigned) : ProducerCall T → ProducerAnswer → Prop
  | .tryPush _, ans => free = 0#32 ∧ ans = .verdict false
  | .push _ n, ans => min_ n free = 0#32 ∧ ans = .count 0#32
  | .tryReserve1, ans =>
      (free = 0#32 ∧ ans = .slot none) ∨ (free ≠ 0#32 ∧ ∃ p, ans = .slot (some p))
  | .reserve1, ans => free ≠ 0#32 ∧ ∃ p, ans = .slot (some p)
  | _, _ => False

/-- The answers when `x` values have been published. -/
def ProducerCall.Puts (x : Unsigned) : ProducerCall T → ProducerAnswer → Prop
  | .tryPush _, ans => x = 1#32 ∧ ans = .verdict true
  | .waitPush _, ans => x = 1#32 ∧ ans = .done
  | .push _ n, ans => x ≠ 0#32 ∧ x.toNat ≤ n.toNat ∧ ans = .count x
  | .finish1, ans => x = 1#32 ∧ ans = .done
  | _, _ => False

/-- `c` returns after publishing. -/
def ProducerCall.Publishing (c : ProducerCall T) (in_ : Unsigned) :
    QueueProg T (Option ProducerAnswer) → Prop :=
  Publishes in_ fun x ans => ∃ a, ans = some a ∧ c.Puts x a

/-- What has become of call `c` once it has seen `free`. -/
def ProducerCall.Decided (c : ProducerCall T) (in_ free : Unsigned)
    (p : QueueProg T (Option ProducerAnswer)) : Prop :=
  (∃ ans, settlesIn in_ p = some ans ∧ ∀ a, ans = some a → c.Sees free a)
    ∨ c.Publishing in_ p

theorem pushWith_decided (capacity : Capacity) (ret : Nat → T) (n : CInt) (in_ : Unsigned) :
    ∃ f k, pushWith capacity (storeSlots ret) n = .act .readIn f ∧ f in_ = .act .readOut k
      ∧ ∀ out, (min_ n (capacity.val - in_ + out) = 0#32 ∧ k out = .ret 0#32)
        ∨ (min_ n (capacity.val - in_ + out) ≠ 0#32 ∧ Publishes in_
          (fun x r => x = min_ n (capacity.val - in_ + out) ∧ r = x) (k out)) := by
  simp only [pushWith, readIn_bind, readOut_bind, addIn_bind, Prog.pure_eq]
  refine ⟨_, _, rfl, rfl, fun out => ?_⟩
  split
  · next hzero => exact .inl ⟨hzero, rfl⟩
  · next hzero =>
      refine .inr ⟨hzero, ?_⟩
      apply storeSlots_publishes
      apply storeSlots_publishes
      exact ⟨_, _, rfl, rfl, rfl, rfl⟩

/-- Every call but `finish_1` reads both counters, and is decided then. -/
theorem ProducerCall.body_decided (elem : Element T) (capacity : Capacity) {c : ProducerCall T}
    (hc : c ≠ .finish1) (in_ : Unsigned) :
    ∃ f k, c.body elem capacity = .act .readIn f ∧ f in_ = .act .readOut k
      ∧ ∀ out, c.Decided in_ (capacity.val - in_ + out) (k out) := by
  cases c with
  | finish1 => exact absurd rfl hc
  | tryPush t =>
      refine ⟨_, _, rfl, rfl, fun out => ?_⟩
      dsimp only [Prog.bind]
      split
      · next hfull => exact .inl ⟨_, rfl, fun a ha => ⟨hfull, (Option.some.inj ha).symm⟩⟩
      · exact .inr ⟨_, _, rfl, rfl, _, rfl, rfl, rfl⟩
  | waitPush t =>
      refine ⟨_, _, rfl, rfl, fun out => ?_⟩
      dsimp only [Prog.bind]
      split
      · exact .inl ⟨_, rfl, fun a ha => by cases ha⟩
      · exact .inr ⟨_, _, rfl, rfl, _, rfl, rfl, rfl⟩
  | push ret n =>
      obtain ⟨f, k, hbody, hf, hk⟩ := pushWith_decided capacity ret n in_
      simp only [ProducerCall.body, push_eq, hbody]
      refine ⟨_, fun out => (fun r => some (.count r)) <$> k out, rfl, ?_, fun out => ?_⟩
      · exact congrArg ((fun r => some (ProducerAnswer.count r)) <$> ·) hf
      · have hle := min_toNat n (capacity.val - in_ + out)
        rcases hk out with ⟨hzero, hret⟩ | ⟨hne, hpublishes⟩
        · dsimp only
          rw [hret]
          exact .inl ⟨_, rfl, fun a ha => ⟨hzero, (Option.some.inj ha).symm⟩⟩
        · refine .inr (hpublishes.map _ ?_)
          rintro x r ⟨rfl, rfl⟩
          exact ⟨_, rfl, hne, by omega, rfl⟩
  | tryReserve1 =>
      refine ⟨_, _, rfl, rfl, fun out => ?_⟩
      dsimp only [Prog.bind]
      split
      · next hfull =>
          exact .inl ⟨_, rfl, fun a ha => .inl ⟨hfull, (Option.some.inj ha).symm⟩⟩
      · next hfull =>
          exact .inl ⟨_, rfl, fun a ha => .inr ⟨hfull, _, (Option.some.inj ha).symm⟩⟩
  | reserve1 =>
      refine ⟨_, _, rfl, rfl, fun out => ?_⟩
      dsimp only [Prog.bind]
      split
      · exact .inl ⟨_, rfl, fun a ha => by cases ha⟩
      · next hfull => exact .inl ⟨_, rfl, fun a ha => ⟨hfull, _, (Option.some.inj ha).symm⟩⟩

theorem ProducerCall.finish1_publishing (elem : Element T) (capacity : Capacity) (in_ : Unsigned) :
    (ProducerCall.finish1 : ProducerCall T).Publishing in_
      (ProducerCall.finish1.body elem capacity) :=
  ⟨_, _, rfl, rfl, _, rfl, rfl, rfl⟩

/-! ## The consumer's calls -/

theorem settlesOut_map (g : α → β) (out : Unsigned) (p : QueueProg T α) :
    settlesOut out (g <$> p) = (settlesOut out p).map g := by
  induction p with
  | ret x => rfl
  | act a k ih =>
      cases a with
      | readOut => exact ih out
      | _ => rfl

theorem Releases.map {out : Unsigned} {ok : List T → Unsigned → α → Prop}
    {ok' : List T → Unsigned → β → Prop} {taken : List T} {p : QueueProg T α} (g : α → β)
    (h : Releases out ok taken p) (hok : ∀ taken x a, ok taken x a → ok' taken x (g a)) :
    Releases out ok' taken (g <$> p) := by
  induction p generalizing taken with
  | ret x => cases h
  | act a k ih =>
      cases a with
      | readOut => exact ih _ h
      | readSlot i => exact fun t => ih t (h t)
      | moveSlot i => exact fun t => ih t (h t)
      | writeOut v =>
          obtain ⟨x, a, hv, hk, hxa⟩ := h
          exact ⟨x, g a, hv, congrArg (g <$> ·) hk, hok taken x a hxa⟩
      | _ => cases h

/-- The values loaded into `n` places of the caller's array are taken. -/
theorem loadSlots_releases {out : Unsigned} {ok : List T → Unsigned → α → Prop}
    {f : (Nat → T) → QueueProg T α} {fetch : Nat → QueueProg T T}
    (hfetch : fetch = readSlot ∨ fetch = moveSlot) {ret : Nat → T} {dst src n : Nat}
    {taken : List T}
    (hf : ∀ ts ret', ts.length = n → Loaded ret ret' dst ts →
      Releases out ok (taken ++ ts) (f ret')) :
    Releases out ok taken (loadSlots fetch ret dst src n >>= f) := by
  induction n generalizing ret dst src taken with
  | zero =>
      have hnone := hf [] ret rfl (.nil ret dst)
      rwa [List.append_nil] at hnone
  | succ n ih =>
      have hrest : ∀ t, Releases out ok (taken ++ [t])
          (loadSlots fetch (setSlot ret dst t) (dst + 1) (src + 1) n >>= f) := by
        intro t
        apply ih
        intro ts ret' hlength hloaded
        have hall := hf (t :: ts) ret' (by rw [List.length_cons, hlength]) hloaded.cons
        rwa [List.append_cons] at hall
      rcases hfetch with rfl | rfl
      · exact hrest
      · exact hrest

theorem pop_decided (capacity : Capacity) (t : T) :
    ∃ f, SpscQueue.pop capacity t = .act .readIn f ∧ ∀ in_ out,
      (in_ - out = 0#32 ∧ settlesOut out (f in_) = some (false, t))
        ∨ Releases out (fun taken x r => ∃ y, taken = [y] ∧ x = 1#32 ∧ r = (true, y)) [] (f in_) := by
  simp only [SpscQueue.pop, readIn_bind, readOut_bind, moveSlot_bind, addOut_bind, Prog.pure_eq]
  refine ⟨_, rfl, fun in_ out => ?_⟩
  simp only [settlesOut, Releases]
  split
  · next hempty => exact .inl ⟨hempty, rfl⟩
  · exact .inr fun t => ⟨_, _, rfl, rfl, t, rfl, rfl, rfl⟩

theorem popWith_decided (capacity : Capacity) {fetch : Nat → QueueProg T T}
    (hfetch : fetch = readSlot ∨ fetch = moveSlot) (ret : Nat → T) (n : CInt) :
    ∃ f, popWith capacity (loadSlots fetch) ret n = .act .readIn f ∧ ∀ in_ out,
      (min_ n (in_ - out) = 0#32 ∧ settlesOut out (f in_) = some (0#32, ret))
        ∨ (min_ n (in_ - out) ≠ 0#32 ∧ Releases out (fun taken x r => x = min_ n (in_ - out)
          ∧ taken.length = x.toNat ∧ r = (x, overlay taken ret)) [] (f in_)) := by
  simp only [popWith, readIn_bind, readOut_bind, addOut_bind, Prog.pure_eq]
  refine ⟨_, rfl, fun in_ out => ?_⟩
  simp only [settlesOut, Releases]
  generalize min_ n (in_ - out) = len
  split
  · next hzero => exact .inl ⟨hzero, rfl⟩
  · next hzero =>
      have hsum := min_toNat_add_sub len (capacity.val - (out &&& capacity.mask))
      refine .inr ⟨hzero, ?_⟩
      apply loadSlots_releases hfetch
      intro ts ret₁ hts hloaded₁
      apply loadSlots_releases hfetch
      intro us ret₂ hus hloaded₂
      rw [← hts] at hloaded₂
      have hall : (ts ++ us).length = len.toNat := by
        rw [List.length_append, hts, hus]
        exact hsum
      have hret := hloaded₁.overlay hloaded₂
      exact ⟨len, _, rfl, rfl, rfl, hall, by rw [hret, List.nil_append]⟩

/-- The answers that leave the elements as they are, when `avail` of them are seen. -/
def ConsumerCall.Sees (avail : Unsigned) : ConsumerCall T → ConsumerAnswer T → Prop
  | .pop t, ans => avail = 0#32 ∧ ans = .popped false t
  | .popBulk ret n, ans => min_ n avail = 0#32 ∧ ans = .batch 0#32 ret
  | .peek max, ans => ∃ p, ans = .peeked (min_ max avail) p
  | .consume _, _ => False

/-- The answers when `x` of the values taken are released, `started` of which were
taken before the call. -/
def ConsumerCall.Gets (started taken : List T) (x : Unsigned) :
    ConsumerCall T → ConsumerAnswer T → Prop
  | .pop _, ans => ∃ t, taken = [t] ∧ x = 1#32 ∧ ans = .popped true t
  | .popBulk ret n, ans => x ≠ 0#32 ∧ x.toNat ≤ n.toNat ∧ taken.length = x.toNat
      ∧ ans = .batch x (overlay taken ret)
  | .peek _, _ => False
  | .consume k, ans => taken = started ∧ x = k ∧ ans = .done

/-- `c` returns after releasing. -/
def ConsumerCall.Releasing (c : ConsumerCall T) (started : List T) (out : Unsigned) :
    List T → QueueProg T (ConsumerAnswer T) → Prop :=
  Releases out fun taken x ans => c.Gets started taken x ans

/-- Every call but `consume` reads `in` first, and is decided then. -/
theorem ConsumerCall.body_decided (elem : Element T) (capacity : Capacity) {c : ConsumerCall T}
    (hc : ∀ k, c ≠ .consume k) :
    ∃ f, c.body elem capacity = .act .readIn f ∧ ∀ in_ out,
      (∃ ans, settlesOut out (f in_) = some ans ∧ c.Sees (in_ - out) ans)
        ∨ c.Releasing [] out [] (f in_) := by
  cases c with
  | consume k => exact absurd rfl (hc k)
  | pop t =>
      obtain ⟨f, hbody, hf⟩ := pop_decided capacity t
      simp only [ConsumerCall.body, hbody]
      refine ⟨fun in_ => (fun r => .popped r.1 r.2) <$> f in_, rfl, fun in_ out => ?_⟩
      dsimp only
      rcases hf in_ out with ⟨hempty, hret⟩ | hreleases
      · rw [settlesOut_map, hret]
        exact .inl ⟨_, rfl, hempty, rfl⟩
      · refine .inr (hreleases.map _ ?_)
        rintro taken x r ⟨y, rfl, rfl, rfl⟩
        exact ⟨y, rfl, rfl, rfl⟩
  | popBulk ret n =>
      obtain ⟨fetch, hfetch, hpop⟩ := popBulk_eq elem capacity ret n
      obtain ⟨f, hbody, hf⟩ := popWith_decided capacity hfetch ret n
      simp only [ConsumerCall.body, hpop, hbody]
      refine ⟨fun in_ => (fun r => .batch r.1 r.2) <$> f in_, rfl, fun in_ out => ?_⟩
      have hle := min_toNat n (in_ - out)
      dsimp only
      rcases hf in_ out with ⟨hzero, hret⟩ | ⟨hne, hreleases⟩
      · rw [settlesOut_map, hret]
        exact .inl ⟨_, rfl, hzero, rfl⟩
      · refine .inr (hreleases.map _ ?_)
        rintro taken x r ⟨rfl, hlength, rfl⟩
        exact ⟨hne, by omega, hlength, rfl⟩
  | peek max => exact ⟨_, rfl, fun in_ out => .inl ⟨_, rfl, _, rfl⟩⟩

theorem ConsumerCall.consume_releasing (elem : Element T) (capacity : Capacity) (k out : Unsigned)
    (taken : List T) : (ConsumerCall.consume k : ConsumerCall T).Releasing taken out taken
      ((ConsumerCall.consume k).body elem capacity) :=
  ⟨_, _, rfl, rfl, rfl, rfl, rfl⟩

end LockFreeRingBuf
