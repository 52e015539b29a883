import LockFreeRingBuf.RingEffects
import LockFreeRingBuf.Lib.Linearizable

/-!
# The calls of the ring as single steps

`RingStep` is the ring as its callers see it: a list of at most `capacity`
values on which every call is one step. A call that publishes takes effect
where it bumps `in`, one that releases where it bumps `out`, and one that
does neither where it reads the counter of the other thread. The bulk calls
count before they take effect: the other thread may have moved on by then,
so they may transfer less than there is room or elements for, but never
nothing when there was some.

`finish_1` and `consume` work on a slot or on slots that the thread holds;
their operations carry the value that stands there, or the values read. Which
slot a pointer names is not part of this view.
-/

namespace LockFreeRingBuf

open Resumption Transition Linearizability

variable {T : Type} {elem : Element T} {capacity : Capacity}

/-! ## The ring as its callers see it -/

inductive RingOp (T : Type) where
  | produce (c : ProducerCall T) (offer : List T)
  | consume (c : ConsumerCall T) (started : List T)

inductive RingAnswer (T : Type) where
  | producer (ans : ProducerAnswer)
  | consumer (ans : ConsumerAnswer T)

inductive RingStep (capacity : Capacity) : Spec (RingOp T) (RingAnswer T) (List T)
  | pushed {t q} : q.length < capacity.size →
      RingStep capacity (.produce (.tryPush t) [t]) (.producer (.verdict true)) q (q ++ [t])
  | refused {t offer q} : q.length = capacity.size →
      RingStep capacity (.produce (.tryPush t) offer) (.producer (.verdict false)) q q
  | waited {t q} : q.length < capacity.size →
      RingStep capacity (.produce (.waitPush t) [t]) (.producer .done) q (q ++ [t])
  | counted {ret n offer q} {r : CInt} : r.toNat ≤ n.toNat → q.length + r.toNat ≤ capacity.size →
      (r = 0#32 → n = 0#32 ∨ q.length = capacity.size) →
      RingStep capacity (.produce (.push ret n) offer) (.producer (.count r)) q
        (q ++ firstN ret r.toNat)
  | noSlot {offer q} : q.length = capacity.size →
      RingStep capacity (.produce .tryReserve1 offer) (.producer (.slot none)) q q
  | slot {offer p q} : q.length < capacity.size →
      RingStep capacity (.produce .tryReserve1 offer) (.producer (.slot (some p))) q q
  | reserved {offer p q} : q.length < capacity.size →
      RingStep capacity (.produce .reserve1 offer) (.producer (.slot (some p))) q q
  | finished {v q} : q.length < capacity.size →
      RingStep capacity (.produce .finish1 [v]) (.producer .done) q (q ++ [v])
  | popped {t v started q} :
      RingStep capacity (.consume (.pop t) started) (.consumer (.popped true v)) (v :: q) q
  | empty {t started} :
      RingStep capacity (.consume (.pop t) started) (.consumer (.popped false t)) [] []
  | batch {ret n vs started q} {r : CInt} : vs.length = r.toNat → r.toNat ≤ n.toNat →
      (r = 0#32 → n = 0#32 ∨ q = []) →
      RingStep capacity (.consume (.popBulk ret n) started) (.consumer (.batch r (overlay vs ret)))
        (vs ++ q) q
  | peeked {max p started q} {n : CInt} : n.toNat = min max.toNat q.length →
      RingStep capacity (.consume (.peek max) started) (.consumer (.peeked n p)) q q
  | released {k started q} : k.toNat ≤ started.length →
      RingStep capacity (.consume (.consume k) started) (.consumer .done)
        (started.take k.toNat ++ q) q

theorem toNat_ne_zero {x : Unsigned} (h : x ≠ 0#32) : x.toNat ≠ 0 :=
  fun hzero => h (BitVec.eq_of_toNat_eq hzero)

/-- A count of nothing says that nothing was asked for or seen. -/
theorem min_eq_zero {n x : Unsigned} (h : min_ n x = 0#32) : n = 0#32 ∨ x.toNat = 0 := by
  have hmin := min_toNat n x
  rw [h] at hmin
  have hzero : n.toNat = 0 ∨ x.toNat = 0 := by
    have : (0#32).toNat = 0 := rfl
    omega
  exact hzero.imp_left BitVec.eq_of_toNat_eq

/-- A call that has seen how much is free answers as specified. -/
theorem ProducerCall.Sees.step {c : ProducerCall T} {offer q : List T} {free : Unsigned}
    {ans : ProducerAnswer} (h : c.Sees free ans) (hfree : q.length + free.toNat = capacity.size) :
    RingStep capacity (.produce c offer) (.producer ans) q q := by
  cases c with
  | tryPush t =>
      obtain ⟨rfl, rfl⟩ := h
      exact .refused hfree
  | waitPush | finish1 => cases h
  | push ret n =>
      obtain ⟨hzero, rfl⟩ := h
      have hcounted : RingStep capacity (.produce (.push ret n) offer) (.producer (.count 0#32)) q
          (q ++ firstN ret 0) := by
        apply RingStep.counted
        · exact Nat.zero_le _
        · exact Nat.le.intro hfree
        · intro _
          exact (min_eq_zero hzero).imp_right fun h => by omega
      rwa [show firstN ret 0 = [] from rfl, List.append_nil] at hcounted
  | tryReserve1 =>
      rcases h with ⟨rfl, rfl⟩ | ⟨hne, p, rfl⟩
      · exact .noSlot hfree
      · have hpos := toNat_ne_zero hne
        exact .slot (by omega)
  | reserve1 =>
      obtain ⟨hne, p, rfl⟩ := h
      have hpos := toNat_ne_zero hne
      exact .reserved (by omega)

/-- A call that publishes some of its offer answers as specified. -/
theorem ProducerCall.Puts.step {c : ProducerCall T} {s : Producer T} {offer q : List T}
    {x : Unsigned} {ans : ProducerAnswer} (h : c.Puts x ans) (hoffer : s.offers c = some offer)
    (hroom : (q ++ offer.take x.toNat).length ≤ capacity.size) :
    RingStep capacity (.produce c offer) (.producer ans) q (q ++ offer.take x.toNat) := by
  rcases Producer.offers_cases hoffer with hidle | ⟨i, v, -, rfl, rfl⟩
  · cases c with
    | tryPush t =>
        obtain rfl := Option.some.inj hidle
        obtain ⟨rfl, rfl⟩ := h
        exact .pushed (Nat.lt_of_succ_le (by simpa using hroom))
    | waitPush t =>
        obtain rfl := Option.some.inj hidle
        obtain ⟨rfl, rfl⟩ := h
        exact .waited (Nat.lt_of_succ_le (by simpa using hroom))
    | push ret n =>
        obtain rfl := Option.some.inj hidle
        obtain ⟨hne, hle, rfl⟩ := h
        rw [firstN_take, Nat.min_eq_left hle] at hroom ⊢
        rw [List.length_append, firstN_length] at hroom
        exact .counted hle hroom fun hzero => absurd hzero hne
    | tryReserve1 | reserve1 => cases h
    | finish1 => cases hidle
  · obtain ⟨rfl, rfl⟩ := h
    exact .finished (Nat.lt_of_succ_le (by simpa using hroom))

theorem ConsumerCall.Sees.step {c : ConsumerCall T} {started q : List T} {avail : Unsigned}
    {ans : ConsumerAnswer T} (h : c.Sees avail ans) (havail : avail.toNat = q.length) :
    RingStep capacity (.consume c started) (.consumer ans) q q := by
  cases c with
  | pop t =>
      obtain ⟨rfl, rfl⟩ := h
      obtain rfl := List.eq_nil_of_length_eq_zero havail.symm
      exact .empty
  | popBulk ret n =>
      obtain ⟨hzero, rfl⟩ := h
      have hbatch : RingStep capacity (.consume (.popBulk ret n) started)
          (.consumer (.batch 0#32 (overlay [] ret))) ([] ++ q) q := by
        apply RingStep.batch
        · rfl
        · exact Nat.zero_le _
        · intro _
          refine (min_eq_zero hzero).imp_right fun h => ?_
          exact List.eq_nil_of_length_eq_zero (havail.symm.trans h)
      exact hbatch
  | peek max =>
      obtain ⟨p, rfl⟩ := h
      exact .peeked (by rw [min_toNat, havail])
  | consume k => cases h

/-- A call that releases some of what it has taken answers as specified. -/
theorem ConsumerCall.Gets.step {c : ConsumerCall T} {s : Consumer T} {started taken q : List T}
    {x : Unsigned} {ans : ConsumerAnswer T} (h : c.Gets started taken x ans)
    (hstarted : s.starts c = some started) :
    RingStep capacity (.consume c started) (.consumer ans) (taken.take x.toNat ++ q) q := by
  cases c with
  | pop t =>
      obtain ⟨v, rfl, rfl, rfl⟩ := h
      exact .popped
  | popBulk ret n =>
      obtain ⟨hne, hle, hlength, rfl⟩ := h
      rw [List.take_of_length_le (Nat.le_of_eq hlength)]
      exact .batch hlength hle fun hzero => absurd hzero hne
  | peek => cases h
  | consume k =>
      obtain ⟨rfl, rfl, rfl⟩ := h
      rcases Consumer.starts_cases hstarted with ⟨-, hidle⟩ | ⟨n, p, k', -, heq, hk⟩
      · cases hidle
      · obtain rfl := ConsumerCall.consume.inj heq
        exact .released hk

/-! ## Where a call is -/

/-- The elements of the ring. -/
def Shared.contents (s : Shared T) : List T := s.published.drop s.consumed.length

theorem Shared.contents_length (s : Shared T) : s.contents.length = s.level := List.length_drop

/-- A call has taken effect when its answer is settled. -/
def ProducerCall.status (c : ProducerCall T) (offered : List T) (in_ : Unsigned)
    (p : QueueProg T (Option ProducerAnswer)) : Status (RingOp T) (RingAnswer T) :=
  match settlesIn in_ p with
  | some (some ans) => .applied (.produce c offered) (.producer ans)
  | _ => .invoked (.produce c offered)

def ConsumerCall.status (c : ConsumerCall T) (started : List T) (out : Unsigned)
    (p : QueueProg T (ConsumerAnswer T)) : Status (RingOp T) (RingAnswer T) :=
  match settlesOut out p with
  | some ans => .applied (.consume c started) (.consumer ans)
  | none => .invoked (.consume c started)

theorem ProducerCall.status_invoked {c : ProducerCall T} {offered : List T} {in_ : Unsigned}
    {p : QueueProg T (Option ProducerAnswer)}
    (h : settlesIn in_ p = none ∨ settlesIn in_ p = some none) :
    c.status offered in_ p = .invoked (.produce c offered) := by
  rcases h with h | h <;> rw [status, h]

theorem ProducerCall.status_applied {c : ProducerCall T} {offered : List T} {in_ : Unsigned}
    {p : QueueProg T (Option ProducerAnswer)} {ans : ProducerAnswer}
    (h : settlesIn in_ p = some (some ans)) :
    c.status offered in_ p = .applied (.produce c offered) (.producer ans) := by
  rw [status, h]

theorem ConsumerCall.status_invoked {c : ConsumerCall T} {started : List T} {out : Unsigned}
    {p : QueueProg T (ConsumerAnswer T)} (h : settlesOut out p = none) :
    c.status started out p = .invoked (.consume c started) := by
  rw [status, h]

theorem ConsumerCall.status_applied {c : ConsumerCall T} {started : List T} {out : Unsigned}
    {p : QueueProg T (ConsumerAnswer T)} {ans : ConsumerAnswer T}
    (h : settlesOut out p = some ans) :
    c.status started out p = .applied (.consume c started) (.consumer ans) := by
  rw [status, h]

section

variable (elem : Element T) (capacity : Capacity)

/-- The places of a call that began with the values `offered`. -/
inductive ProducerCall.At (c : ProducerCall T) (offered : List T) (in_ : Unsigned) :
    List T → QueueProg T (Option ProducerAnswer) → Prop
  | start : c ≠ .finish1 → At c offered in_ offered (c.body elem capacity)
  | looking {k} : (∀ out, c.Decided in_ (capacity.val - in_ + out) (k out)) →
      At c offered in_ offered (.act .readOut k)
  | publishing {p} : c.Publishing in_ p → At c offered in_ offered p
  | passed {p} : settlesIn in_ p = some none → At c offered in_ offered p
  | settled {offer p ans} : settlesIn in_ p = some (some ans) → At c offered in_ offer p

/-- The places of a call that began with the values `started` taken. -/
inductive ConsumerCall.At (c : ConsumerCall T) (started : List T) (out : Unsigned) :
    List T → QueueProg T (ConsumerAnswer T) → Prop
  | start : (∀ k, c ≠ .consume k) → started = [] →
      At c started out started (c.body elem capacity)
  | releasing {taken p} : c.Releasing started out taken p → At c started out taken p
  | settled {taken p ans} : settlesOut out p = some ans → At c started out taken p

end

theorem ProducerCall.At.begin (elem : Element T) (capacity : Capacity) (c : ProducerCall T)
    (offered : List T) (in_ : Unsigned) :
    c.At elem capacity offered in_ offered (c.body elem capacity) := by
  by_cases hc : c = .finish1
  · subst hc
    exact .publishing (ProducerCall.finish1_publishing elem capacity in_)
  · exact .start hc

/-- A call that goes round again still offers what it began with. -/
theorem ProducerCall.At.offer_eq {c : ProducerCall T} {offered offer : List T} {in_ : Unsigned}
    (h : c.At elem capacity offered in_ offer (.ret none)) : offer = offered := by
  generalize hp : (Prog.ret none : QueueProg T (Option ProducerAnswer)) = p at h
  cases h with
  | settled hsettles => subst hp; cases hsettles
  | _ => rfl

/-- At the start of a pass nothing is settled. -/
theorem ProducerCall.status_begin (elem : Element T) (capacity : Capacity) (c : ProducerCall T)
    (offered : List T) (in_ : Unsigned) :
    c.status offered in_ (c.body elem capacity) = .invoked (.produce c offered) := by
  refine status_invoked (.inl ?_)
  by_cases hc : c = .finish1
  · subst hc
    exact (ProducerCall.finish1_publishing elem capacity in_).settlesIn
  · obtain ⟨f, k, hbody, hf, -⟩ := ProducerCall.body_decided elem capacity hc in_
    rw [hbody, settlesIn, hf]
    rfl

theorem ConsumerCall.At.begin (elem : Element T) (capacity : Capacity) {c : ConsumerCall T}
    {s : Consumer T} {started : List T} (h : s.starts c = some started) (out : Unsigned) :
    c.At elem capacity started out started (c.body elem capacity) := by
  rcases Consumer.starts_cases h with ⟨-, hidle⟩ | ⟨n, p, k, -, rfl, -⟩
  · refine .start (fun k hk => ?_) (Consumer.starts_idle hidle)
    rw [hk] at hidle
    cases hidle
  · exact .releasing (ConsumerCall.consume_releasing elem capacity k out started)

theorem ConsumerCall.status_begin (elem : Element T) (capacity : Capacity) (c : ConsumerCall T)
    (started : List T) (out : Unsigned) :
    c.status started out (c.body elem capacity) = .invoked (.consume c started) := by
  refine status_invoked ?_
  by_cases hc : ∃ k, c = .consume k
  · obtain ⟨k, rfl⟩ := hc
    exact (ConsumerCall.consume_releasing elem capacity k out started).settlesOut
  · obtain ⟨f, hbody, -⟩ := ConsumerCall.body_decided elem capacity fun k hk => hc ⟨k, hk⟩
    rw [hbody]
    rfl

/-! ## One access -/

/-- What an access of the producer adds to the elements. -/
theorem Counters.produce_contents {s : Shared T} (h : Counters capacity s) {xs : List T}
    {s' : Shared T} (hpub : s'.published = s.published ++ xs) (hcon : s'.consumed = s.consumed) :
    s'.contents = s.contents ++ xs := by
  rw [Shared.contents, Shared.contents, hpub, hcon, List.drop_append_of_le_length h.le]

/-- What an access of the consumer removes from the elements. -/
theorem Counters.release_contents {s s' : Shared T} (h : Counters capacity s') {xs : List T}
    (hpub : s'.published = s.published) (hcon : s'.consumed = s.consumed ++ xs) :
    s.contents = xs ++ s'.contents := by
  obtain ⟨rest, hrest⟩ := h.ordered
  rw [Shared.contents, Shared.contents, hpub, hcon]
  rw [hpub, hcon] at hrest
  rw [← hrest, List.drop_left, List.append_assoc, List.drop_left]

/-- One access inside a call of the producer. -/
theorem ProducerCall.At.access {c : ProducerCall T} {offered offer : List T} {s : Shared T}
    {a : Access T} {k : a.Answer → QueueProg T (Option ProducerAnswer)} {st : Producer T}
    (h : c.At elem capacity offered s.in_ offer (.act a k)) (hcount : Counters capacity s)
    (hcount' : Counters capacity (s.produce elem offer a).1) (hoffer : st.offers c = some offered) :
    c.At elem capacity offered (s.produce elem offer a).1.in_ (s.produce elem offer a).2
        (k (s.toFifo.perform elem a).1)
      ∧ Advances (RingStep capacity) (c.status offered s.in_ (.act a k))
          (c.status offered (s.produce elem offer a).1.in_ (k (s.toFifo.perform elem a).1))
          s.contents (s.produce elem offer a).1.contents := by
  have hfree : s.contents.length + (capacity.val - s.in_ + s.out).toNat = capacity.size := by
    have hle := hcount.level_le
    rw [s.contents_length, hcount.free_toNat]
    omega
  generalize hp : Prog.act a k = p at h
  cases h with
  | start hc =>
      obtain ⟨f, k', hbody, hf, hk⟩ := ProducerCall.body_decided elem capacity hc s.in_
      rw [ProducerCall.status_begin]
      obtain ⟨rfl, hkf⟩ := Prog.act.inj (hp.trans hbody)
      obtain rfl := eq_of_heq hkf
      show c.At elem capacity offered s.in_ offered (k s.in_) ∧ Advances _ _
        (c.status offered s.in_ (k s.in_)) s.contents s.contents
      rw [hf, status_invoked (.inl rfl)]
      exact ⟨.looking hk, .stays⟩
  | looking hk =>
      obtain ⟨rfl, hkf⟩ := Prog.act.inj hp
      obtain rfl := eq_of_heq hkf
      show c.At elem capacity offered s.in_ offered (k s.out) ∧ Advances _ _
        (c.status offered s.in_ (k s.out)) s.contents s.contents
      rw [status_invoked (.inl rfl)]
      rcases hk s.out with ⟨ans, hsettles, hsees⟩ | hpublishing
      · cases ans with
        | none =>
            rw [status_invoked (.inr hsettles)]
            exact ⟨.passed hsettles, .stays⟩
        | some ans =>
            rw [status_applied hsettles]
            exact ⟨.settled hsettles, .takes ((hsees ans rfl).step hfree)⟩
      · rw [status_invoked (.inl hpublishing.settlesIn)]
        exact ⟨.publishing hpublishing, .stays⟩
  | publishing hpublishing =>
      subst hp
      rw [status_invoked (.inl hpublishing.settlesIn)]
      cases a with
      | readIn =>
          have hnext : c.Publishing s.in_ (k s.in_) := hpublishing
          refine ⟨.publishing hnext, ?_⟩
          show Advances _ _ (c.status offered s.in_ (k s.in_)) s.contents s.contents
          rw [status_invoked (.inl hnext.settlesIn)]
          exact .stays
      | writeSlot i t =>
          have hnext : c.Publishing s.in_ (k ()) := hpublishing
          refine ⟨.publishing hnext, ?_⟩
          show Advances _ _ (c.status offered s.in_ (k ())) s.contents s.contents
          rw [status_invoked (.inl hnext.settlesIn)]
          exact .stays
      | writeIn v =>
          obtain ⟨x, _, rfl, hk, ans, rfl, hputs⟩ := hpublishing
          have hx : (s.in_ + x - s.in_).toNat = x.toNat := by
            rw [BitVec.add_comm, BitVec.add_sub_cancel]
          have hsettles : ∀ in_, settlesIn in_ (k ()) = some (some ans) := fun in_ => by
            rw [hk]
            rfl
          have hcontents : (s.produce elem offered (.writeIn (s.in_ + x))).1.contents
              = s.contents ++ offered.take x.toNat := by
            apply hcount.produce_contents
            · show _ ++ offered.take (s.in_ + x - s.in_).toNat = _
              rw [hx]
            · rfl
          have hroom := hcount'.level_le
          rw [← Shared.contents_length, hcontents] at hroom
          rw [hcontents, status_applied (hsettles _)]
          exact ⟨.settled (hsettles _), .takes (hputs.step hoffer hroom)⟩
      | _ => cases hpublishing
  | passed hsettles =>
      subst hp
      cases a with
      | readIn =>
          have hnext : settlesIn s.in_ (k s.in_) = some none := hsettles
          refine ⟨.passed hnext, ?_⟩
          show Advances _ _ (c.status offered s.in_ (k s.in_)) s.contents s.contents
          rw [status_invoked (.inr hsettles), status_invoked (.inr hnext)]
          exact .stays
      | _ => cases hsettles
  | settled hsettles =>
      subst hp
      cases a with
      | readIn =>
          have hnext : settlesIn s.in_ (k s.in_) = some (some _) := hsettles
          refine ⟨.settled hnext, ?_⟩
          show Advances _ _ (c.status offered s.in_ (k s.in_)) s.contents s.contents
          rw [status_applied hsettles, status_applied hnext]
          exact .stays
      | _ => cases hsettles

/-- One access inside a call of the consumer. -/
theorem ConsumerCall.At.access {c : ConsumerCall T} {started taken : List T} {s : Shared T}
    {a : Access T} {k : a.Answer → QueueProg T (ConsumerAnswer T)} {st : Consumer T}
    (h : c.At elem capacity started s.out taken (.act a k)) (hcount : Counters capacity s)
    (hcount' : Counters capacity (s.release elem taken a (s.toFifo.perform elem a).1).1)
    (hstarted : st.starts c = some started) :
    let r := (s.toFifo.perform elem a).1
    c.At elem capacity started (s.release elem taken a r).1.out (s.release elem taken a r).2 (k r)
      ∧ Advances (RingStep capacity) (c.status started s.out (.act a k))
          (c.status started (s.release elem taken a r).1.out (k r))
          s.contents (s.release elem taken a r).1.contents := by
  intro r
  have havail : (s.in_ - s.out).toNat = s.contents.length := by
    rw [s.contents_length, hcount.sub_toNat]
  generalize hp : Prog.act a k = p at h
  cases h with
  | start hc hnil =>
      obtain ⟨f, hbody, hf⟩ := ConsumerCall.body_decided elem capacity hc
      rw [status_begin]
      obtain ⟨rfl, hkf⟩ := Prog.act.inj (hp.trans hbody)
      obtain rfl := eq_of_heq hkf
      show c.At elem capacity started s.out started (k s.in_) ∧ Advances _ _
        (c.status started s.out (k s.in_)) s.contents s.contents
      rcases hf s.in_ s.out with ⟨ans, hsettles, hsees⟩ | hreleasing
      · rw [status_applied hsettles]
        exact ⟨.settled hsettles, .takes (hsees.step havail)⟩
      · subst hnil
        rw [status_invoked hreleasing.settlesOut]
        exact ⟨.releasing hreleasing, .stays⟩
  | releasing hreleasing =>
      subst hp
      rw [status_invoked hreleasing.settlesOut]
      cases a with
      | readOut =>
          have hnext : c.Releasing started s.out taken (k s.out) := hreleasing
          refine ⟨.releasing hnext, ?_⟩
          show Advances _ _ (c.status started s.out (k s.out)) s.contents s.contents
          rw [status_invoked hnext.settlesOut]
          exact .stays
      | readSlot i | moveSlot i =>
          have hnext : c.Releasing started s.out (taken ++ [s.arr i]) (k (s.arr i)) := hreleasing _
          refine ⟨.releasing hnext, ?_⟩
          show Advances _ _ (c.status started s.out (k (s.arr i))) s.contents s.contents
          rw [status_invoked hnext.settlesOut]
          exact .stays
      | writeOut v =>
          obtain ⟨x, ans, rfl, hk, hgets⟩ := hreleasing
          have hx : (s.out + x - s.out).toNat = x.toNat := by
            rw [BitVec.add_comm, BitVec.add_sub_cancel]
          have hsettles : ∀ out, settlesOut out (k ()) = some ans := fun out => by
            rw [hk]
            rfl
          have hcontents : s.contents = taken.take x.toNat
              ++ (s.release elem taken (.writeOut (s.out + x)) ()).1.contents := by
            apply hcount'.release_contents
            · rfl
            · show _ ++ taken.take (s.out + x - s.out).toNat = _
              rw [hx]
          refine ⟨.settled (hsettles _), ?_⟩
          rw [status_applied (hsettles _), hcontents]
          exact .takes (hgets.step hstarted)
      | _ => cases hreleasing
  | settled hsettles =>
      subst hp
      cases a with
      | readOut =>
          have hnext : settlesOut s.out (k s.out) = some _ := hsettles
          refine ⟨.settled hnext, ?_⟩
          show Advances _ _ (c.status started s.out (k s.out)) s.contents s.contents
          rw [status_applied hsettles, status_applied hnext]
          exact .stays
      | _ => cases hsettles

/-! ## The access at which a call takes effect -/

theorem ProducerCall.status_ne_applied {c : ProducerCall T} {offered : List T} {in_ : Unsigned}
    {p : QueueProg T (Option ProducerAnswer)} (h : ∀ ans, settlesIn in_ p ≠ some (some ans))
    (o : RingOp T) (r : RingAnswer T) : c.status offered in_ p ≠ .applied o r := by
  unfold status
  split
  · next ans hsettles => exact absurd hsettles (h ans)
  · nofun

theorem ConsumerCall.status_ne_applied {c : ConsumerCall T} {started : List T} {out : Unsigned}
    {p : QueueProg T (ConsumerAnswer T)} (h : settlesOut out p = none)
    (o : RingOp T) (r : RingAnswer T) : c.status started out p ≠ .applied o r := by
  rw [status_invoked h]
  nofun

/-- A call of the producer is settled by reading `out` or by bumping `in`. -/
theorem ProducerCall.At.settled_by {c : ProducerCall T} {offered offer : List T} {s : Shared T}
    {a : Access T} {k : a.Answer → QueueProg T (Option ProducerAnswer)} {o o' : RingOp T}
    {r : RingAnswer T} (h : c.At elem capacity offered s.in_ offer (.act a k))
    (hbefore : c.status offered s.in_ (.act a k) = .invoked o)
    (hafter : c.status offered (s.produce elem offer a).1.in_ (k (s.toFifo.perform elem a).1)
      = .applied o' r) :
    a = .readOut ∨ ∃ v, a = .writeIn v := by
  generalize hp : Prog.act a k = p at h
  cases h with
  | start hc =>
      -- The first read changes nothing: the status is that of the program after it.
      obtain ⟨f, k', hbody, -⟩ := ProducerCall.body_decided elem capacity hc s.in_
      obtain ⟨rfl, -⟩ := Prog.act.inj (hp.trans hbody)
      cases hbefore.symm.trans hafter
  | looking hk =>
      obtain ⟨rfl, -⟩ := Prog.act.inj hp
      exact .inl rfl
  | publishing hpublishing =>
      subst hp
      cases a with
      | readIn => cases hbefore.symm.trans hafter
      | writeSlot i t =>
          have hnext : c.Publishing s.in_ (k ()) := hpublishing
          refine absurd hafter (ProducerCall.status_ne_applied (fun ans hsettles => ?_) _ _)
          cases hnext.settlesIn.symm.trans hsettles
      | writeIn v => exact .inr ⟨v, rfl⟩
      | _ => cases hpublishing
  | passed hsettles | settled hsettles =>
      subst hp
      cases a with
      | readIn => cases hbefore.symm.trans hafter
      | _ => cases hsettles

/-- After bumping `in` a call of the producer returns. -/
theorem ProducerCall.At.bump {c : ProducerCall T} {offered offer : List T} {in_ v : Unsigned}
    {k : Unit → QueueProg T (Option ProducerAnswer)}
    (h : c.At elem capacity offered in_ offer (.act (.writeIn v) k)) :
    ∃ ans, k () = .ret (some ans) := by
  generalize hp : (.act (.writeIn v) k : QueueProg T (Option ProducerAnswer)) = p at h
  cases h with
  | start hc =>
      obtain ⟨f, k', hbody, -⟩ := ProducerCall.body_decided elem capacity hc in_
      cases (Prog.act.inj (hp.trans hbody)).1
  | looking hk => cases (Prog.act.inj hp).1
  | publishing hpublishing =>
      subst hp
      obtain ⟨x, _, -, hk, ans, rfl, -⟩ := hpublishing
      exact ⟨ans, hk⟩
  | passed hsettles | settled hsettles =>
      subst hp
      cases hsettles

/-- A call of the consumer is settled by reading `in` or by bumping `out`. -/
theorem ConsumerCall.At.settled_by {c : ConsumerCall T} {started taken : List T} {s : Shared T}
    {a : Access T} {k : a.Answer → QueueProg T (ConsumerAnswer T)} {o o' : RingOp T}
    {r : RingAnswer T} (h : c.At elem capacity started s.out taken (.act a k))
    (hbefore : c.status started s.out (.act a k) = .invoked o)
    (hafter : c.status started
        (s.release elem taken a (s.toFifo.perform elem a).1).1.out (k (s.toFifo.perform elem a).1)
      = .applied o' r) :
    a = .readIn ∨ ∃ v, a = .writeOut v := by
  generalize hp : Prog.act a k = p at h
  cases h with
  | start hc =>
      obtain ⟨f, hbody, -⟩ := ConsumerCall.body_decided elem capacity hc
      obtain ⟨rfl, -⟩ := Prog.act.inj (hp.trans hbody)
      exact .inl rfl
  | releasing hreleasing =>
      subst hp
      cases a with
      | readOut => cases hbefore.symm.trans hafter
      | readSlot i | moveSlot i =>
          have hnext : c.Releasing started s.out (taken ++ [s.arr i]) (k (s.arr i)) := hreleasing _
          exact absurd hafter (ConsumerCall.status_ne_applied hnext.settlesOut _ _)
      | writeOut v => exact .inr ⟨v, rfl⟩
      | _ => cases hreleasing
  | settled hsettles =>
      subst hp
      cases a with
      | readOut => cases hbefore.symm.trans hafter
      | _ => cases hsettles

/-- After bumping `out` a call of the consumer returns. -/
theorem ConsumerCall.At.bump {c : ConsumerCall T} {started taken : List T} {out v : Unsigned}
    {k : Unit → QueueProg T (ConsumerAnswer T)}
    (h : c.At elem capacity started out taken (.act (.writeOut v) k)) :
    ∃ ans, k () = .ret ans := by
  generalize hp : (.act (.writeOut v) k : QueueProg T (ConsumerAnswer T)) = p at h
  cases h with
  | start hc =>
      obtain ⟨f, hbody, -⟩ := ConsumerCall.body_decided elem capacity hc
      cases (Prog.act.inj (hp.trans hbody)).1
  | releasing hreleasing =>
      subst hp
      obtain ⟨x, ans, -, hk, -⟩ := hreleasing
      exact ⟨ans, hk⟩
  | settled hsettles =>
      subst hp
      cases hsettles

end LockFreeRingBuf
