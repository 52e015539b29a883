import LockFreeRingBuf.RingPlaces

/-!
# The ring is linearizable

Under any interleaving of its two threads the ring is, to their calls, a
list of at most `capacity` values on which every call is the single step
that `RingStep` says. At every time both threads are at one of the places of
the call they are in, so each step of a thread advances its call or leaves
it where it is (`RingRun.acts`).
-/

namespace LockFreeRingBuf

open Resumption Transition Linearizability

variable {T : Type} {elem : Element T} {capacity : Capacity}

def Cmd.thread : Cmd T → RingThread
  | .producer _ => .producer
  | .consumer _ => .consumer

namespace RingRun

variable (ρ : RingRun elem capacity)

/-- What the last call of the producer that began before time `t` offers. -/
def offered : Nat → List T
  | 0 => []
  | t + 1 =>
    match ρ.label t with
    | some (.producer (.call c)) => ((ρ.state t).producer.offers c).getD []
    | _ => offered t

/-- What had been taken when the last call of the consumer before time `t` began. -/
def started : Nat → List T
  | 0 => []
  | t + 1 =>
    match ρ.label t with
    | some (.consumer (.call c)) => ((ρ.state t).consumer.starts c).getD []
    | _ => started t

/-- The calls and returns of a run. -/
def history : History RingThread (RingOp T) (RingAnswer T) where
  begins t i o :=
    match i, o with
    | .producer, .produce c offer =>
      ρ.label t = some (.producer (.call c)) ∧ (ρ.state t).producer.offers c = some offer
    | .consumer, .consume c started =>
      ρ.label t = some (.consumer (.call c)) ∧ (ρ.state t).consumer.starts c = some started
    | _, _ => False
  returns t i r :=
    match i, r with
    | .producer, .producer ans => ρ.label t = some (.producer .step)
      ∧ ∃ c offer, (ρ.state t).producer = .running c offer (.ret (some ans))
    | .consumer, .consumer ans => ρ.label t = some (.consumer .step)
      ∧ ∃ c taken, (ρ.state t).consumer = .running c taken (.ret ans)
    | _, _ => False

def status (t : Nat) : RingThread → Status (RingOp T) (RingAnswer T)
  | .producer =>
    match (ρ.state t).producer with
    | .running c _ p => c.status (ρ.offered t) (ρ.mem t).in_ p
    | _ => .idle
  | .consumer =>
    match (ρ.state t).consumer with
    | .running c _ p => c.status (ρ.started t) (ρ.mem t).out p
    | _ => .idle

/-- The thread whose step it is at time `t`. -/
def actor (t : Nat) : Option RingThread := (ρ.label t).map Cmd.thread

/-- Where the producer is in the call it is in. -/
def ProducerPlaced (t : Nat) : Prop :=
  ∀ {c offer p}, (ρ.state t).producer = .running c offer p →
    (∃ st : Producer T, st.offers c = some (ρ.offered t))
      ∧ c.At elem capacity (ρ.offered t) (ρ.mem t).in_ offer p

/-- Where the consumer is in the call it is in. -/
def ConsumerPlaced (t : Nat) : Prop :=
  ∀ {c taken p}, (ρ.state t).consumer = .running c taken p →
    (∃ st : Consumer T, st.starts c = some (ρ.started t))
      ∧ c.At elem capacity (ρ.started t) (ρ.mem t).out taken p

variable {ρ} {t : Nat}

theorem offered_call {c : ProducerCall T} {offer : List T}
    (hl : ρ.label t = some (.producer (.call c)))
    (hoffer : (ρ.state t).producer.offers c = some offer) : ρ.offered (t + 1) = offer := by
  simp only [offered, hl, hoffer, Option.getD_some]

theorem offered_succ (hl : ∀ c, ρ.label t ≠ some (.producer (.call c))) :
    ρ.offered (t + 1) = ρ.offered t := by
  rw [offered]
  split
  · next c hc => exact absurd hc (hl c)
  · rfl

theorem started_call {c : ConsumerCall T} {started : List T}
    (hl : ρ.label t = some (.consumer (.call c)))
    (hstarted : (ρ.state t).consumer.starts c = some started) :
    ρ.started (t + 1) = started := by
  simp only [RingRun.started, hl, hstarted, Option.getD_some]

theorem started_succ (hl : ∀ c, ρ.label t ≠ some (.consumer (.call c))) :
    ρ.started (t + 1) = ρ.started t := by
  rw [started]
  split
  · next c hc => exact absurd hc (hl c)
  · rfl

theorem producer_status_running {c : ProducerCall T} {offer : List T}
    {p : QueueProg T (Option ProducerAnswer)} (h : (ρ.state t).producer = .running c offer p) :
    ρ.status t .producer = c.status (ρ.offered t) (ρ.mem t).in_ p := by
  rw [status, h]

theorem consumer_status_running {c : ConsumerCall T} {taken : List T}
    {p : QueueProg T (ConsumerAnswer T)} (h : (ρ.state t).consumer = .running c taken p) :
    ρ.status t .consumer = c.status (ρ.started t) (ρ.mem t).out p := by
  rw [status, h]

theorem producer_status_idle (h : ∀ c offer p, (ρ.state t).producer ≠ .running c offer p) :
    ρ.status t .producer = .idle := by
  rw [status]
  split
  · next hp => exact absurd hp (h _ _ _)
  · rfl

theorem consumer_status_idle (h : ∀ c taken p, (ρ.state t).consumer ≠ .running c taken p) :
    ρ.status t .consumer = .idle := by
  rw [status]
  split
  · next hc => exact absurd hc (h _ _ _)
  · rfl

/-! ## Steps of the producer -/

theorem producerPlaced_of_running {c : ProducerCall T} {offer : List T}
    {p : QueueProg T (Option ProducerAnswer)} (h : (ρ.state t).producer = .running c offer p)
    {s : Producer T} (hst : s.offers c = some (ρ.offered t))
    (hat : c.At elem capacity (ρ.offered t) (ρ.mem t).in_ offer p) : ρ.ProducerPlaced t := by
  intro c' offer' p' hp
  obtain ⟨rfl, rfl, rfl⟩ := Producer.running.inj (h.symm.trans hp)
  exact ⟨⟨s, hst⟩, hat⟩

theorem producerPlaced_of_not (h : ∀ c offer p, (ρ.state t).producer ≠ .running c offer p) :
    ρ.ProducerPlaced t := fun hp => absurd hp (h _ _ _)

/-- What a step of the producer is to its call. -/
theorem producer_acts {cmd : ProducerCmd T} (hl : ρ.label t = some (.producer cmd))
    (hmove : (ρ.state t).ProducerMoves elem capacity cmd (ρ.state (t + 1)))
    (hplaced : ρ.ProducerPlaced t) :
    ρ.ProducerPlaced (t + 1)
      ∧ ((∃ o, ρ.history.begins t .producer o) ∨ (∃ r, ρ.history.returns t .producer r)
        ∨ Advances (RingStep capacity) (ρ.status t .producer) (ρ.status (t + 1) .producer)
            (ρ.mem t).contents (ρ.mem (t + 1)).contents) := by
  have hcount := counters_reachable (ρ.reachable t)
  have hcount' := counters_reachable (ρ.reachable (t + 1))
  have hsame : cmd = .step → ρ.offered (t + 1) = ρ.offered t := by
    rintro rfl
    exact offered_succ fun c hc => by rw [hl] at hc; cases hc
  generalize hs' : ρ.state (t + 1) = s' at hmove hcount'
  have hmem : ρ.mem (t + 1) = s'.shared := congrArg Config.shared hs'
  have hprod : (ρ.state (t + 1)).producer = s'.producer := congrArg Config.producer hs'
  cases hmove with
  | @call c offer hoffer =>
      have hoffered := offered_call hl hoffer
      refine ⟨producerPlaced_of_running hprod (s := (ρ.state t).producer) ?_ ?_, ?_⟩
      · rw [hoffered]
        exact hoffer
      · rw [hoffered]
        exact .begin elem capacity c offer _
      · exact .inl ⟨.produce c offer, hl, hoffer⟩
  | @access c offer a k hp =>
      obtain ⟨⟨st, hst⟩, hat⟩ := hplaced hp
      obtain ⟨hnext, hadvances⟩ := hat.access hcount hcount' hst
      have hoffered := hsame rfl
      refine ⟨producerPlaced_of_running hprod (hoffered ▸ hst) ?_, .inr (.inr ?_)⟩
      · rw [hoffered, hmem]
        exact hnext
      · rw [producer_status_running hp, producer_status_running hprod, hoffered, hmem]
        exact hadvances
  | @again c offer hp =>
      obtain ⟨⟨st, hst⟩, hat⟩ := hplaced hp
      obtain rfl := hat.offer_eq
      have hoffered := hsame rfl
      refine ⟨producerPlaced_of_running hprod (hoffered ▸ hst) ?_, .inr (.inr ?_)⟩
      · rw [hoffered]
        exact .begin elem capacity c _ _
      · rw [producer_status_running hp, producer_status_running hprod, hoffered, hmem,
          ProducerCall.status_begin, ProducerCall.status_invoked (.inr rfl)]
        exact .stays
  | @reserve c offer p hp =>
      refine ⟨producerPlaced_of_not fun _ _ _ h => ?_, .inr (.inl ⟨.producer _, hl, c, offer, hp⟩)⟩
      cases hprod.symm.trans h
  | @leave c offer ans hp hans =>
      refine ⟨producerPlaced_of_not fun _ _ _ h => ?_, .inr (.inl ⟨.producer _, hl, c, offer, hp⟩)⟩
      cases hprod.symm.trans h
  | @write p value f hp =>
      have hidle : ∀ c offer q, (ρ.state (t + 1)).producer ≠ .running c offer q :=
        fun _ _ _ h => by cases hprod.symm.trans h
      refine ⟨producerPlaced_of_not hidle, .inr (.inr ?_)⟩
      have hbefore : ∀ c offer q, (ρ.state t).producer ≠ .running c offer q :=
        fun _ _ _ h => by cases hp.symm.trans h
      rw [producer_status_idle hidle, producer_status_idle hbefore, hmem]
      exact .stays

/-! ## Steps of the consumer -/

theorem consumerPlaced_of_running {c : ConsumerCall T} {taken : List T}
    {p : QueueProg T (ConsumerAnswer T)} (h : (ρ.state t).consumer = .running c taken p)
    {s : Consumer T} (hst : s.starts c = some (ρ.started t))
    (hat : c.At elem capacity (ρ.started t) (ρ.mem t).out taken p) : ρ.ConsumerPlaced t := by
  intro c' taken' p' hc
  obtain ⟨rfl, rfl, rfl⟩ := Consumer.running.inj (h.symm.trans hc)
  exact ⟨⟨s, hst⟩, hat⟩

theorem consumerPlaced_of_not (h : ∀ c taken p, (ρ.state t).consumer ≠ .running c taken p) :
    ρ.ConsumerPlaced t := fun hc => absurd hc (h _ _ _)

/-- What a step of the consumer is to its call. -/
theorem consumer_acts {cmd : ConsumerCmd T} (hl : ρ.label t = some (.consumer cmd))
    (hmove : (ρ.state t).ConsumerMoves elem capacity cmd (ρ.state (t + 1)))
    (hplaced : ρ.ConsumerPlaced t) :
    ρ.ConsumerPlaced (t + 1)
      ∧ ((∃ o, ρ.history.begins t .consumer o) ∨ (∃ r, ρ.history.returns t .consumer r)
        ∨ Advances (RingStep capacity) (ρ.status t .consumer) (ρ.status (t + 1) .consumer)
            (ρ.mem t).contents (ρ.mem (t + 1)).contents) := by
  have hcount := counters_reachable (ρ.reachable t)
  have hcount' := counters_reachable (ρ.reachable (t + 1))
  generalize hs' : ρ.state (t + 1) = s' at hmove hcount'
  have hmem : ρ.mem (t + 1) = s'.shared := congrArg Config.shared hs'
  have hcons : (ρ.state (t + 1)).consumer = s'.consumer := congrArg Config.consumer hs'
  -- Outside a call there is nothing to keep.
  have houtside : (∀ c taken p, (ρ.state t).consumer ≠ .running c taken p) →
      (∀ c taken p, s'.consumer ≠ .running c taken p) → s'.shared = ρ.mem t →
      ρ.ConsumerPlaced (t + 1) ∧ Advances (RingStep capacity) (ρ.status t .consumer)
        (ρ.status (t + 1) .consumer) (ρ.mem t).contents (ρ.mem (t + 1)).contents := by
    intro hbefore hafter hshared
    have hafter' : ∀ c taken p, (ρ.state (t + 1)).consumer ≠ .running c taken p :=
      fun c taken p h => hafter c taken p (hcons.symm.trans h)
    rw [consumer_status_idle hbefore, consumer_status_idle hafter', hmem, hshared]
    exact ⟨consumerPlaced_of_not hafter', .stays⟩
  cases hmove with
  | @call c taken hstarts =>
      have hstarted := started_call hl hstarts
      refine ⟨consumerPlaced_of_running hcons (s := (ρ.state t).consumer) ?_ ?_, ?_⟩
      · rw [hstarted]
        exact hstarts
      · rw [hstarted]
        exact .begin elem capacity hstarts _
      · exact .inl ⟨.consume c taken, hl, hstarts⟩
  | @access c taken a k hc =>
      obtain ⟨⟨st, hst⟩, hat⟩ := hplaced hc
      obtain ⟨hnext, hadvances⟩ := hat.access hcount hcount' hst
      have hstarted : ρ.started (t + 1) = ρ.started t :=
        started_succ fun c hc => by rw [hl] at hc; cases hc
      refine ⟨consumerPlaced_of_running hcons (hstarted ▸ hst) ?_, .inr (.inr ?_)⟩
      · rw [hstarted, hmem]
        exact hnext
      · rw [consumer_status_running hc, consumer_status_running hcons, hstarted, hmem]
        exact hadvances
  | @peek c taken n p hc =>
      refine ⟨consumerPlaced_of_not fun _ _ _ h => ?_, .inr (.inl ⟨.consumer _, hl, c, taken, hc⟩)⟩
      cases hcons.symm.trans h
  | @leave c taken ans hc hans =>
      refine ⟨consumerPlaced_of_not fun _ _ _ h => ?_, .inr (.inl ⟨.consumer _, hl, c, taken, hc⟩)⟩
      cases hcons.symm.trans h
  | @look n p taken hc hlt =>
      have hidle : ∀ c taken p, (ρ.state t).consumer ≠ .running c taken p :=
        fun _ _ _ h => by rw [hc] at h; cases h
      obtain ⟨hnext, hstays⟩ := houtside hidle hidle rfl
      exact ⟨hnext, .inr (.inr hstays)⟩
  | read hc _ | drop hc =>
      obtain ⟨hnext, hstays⟩ := houtside (fun _ _ _ h => by rw [hc] at h; cases h)
        (fun _ _ _ h => by cases h) rfl
      exact ⟨hnext, .inr (.inr hstays)⟩

/-! ## The other thread -/

theorem producer_moves {cmd : ProducerCmd T} (hl : ρ.label t = some (.producer cmd)) :
    (ρ.state t).ProducerMoves elem capacity cmd (ρ.state (t + 1)) := by
  rcases ρ.next t with ⟨hnone, -⟩ | ⟨l, hl', hstep⟩
  · cases hl.symm.trans hnone
  · obtain rfl := Option.some.inj (hl.symm.trans hl')
    exact Config.producerStep_moves elem capacity hstep

theorem consumer_moves {cmd : ConsumerCmd T} (hl : ρ.label t = some (.consumer cmd)) :
    (ρ.state t).ConsumerMoves elem capacity cmd (ρ.state (t + 1)) := by
  rcases ρ.next t with ⟨hnone, -⟩ | ⟨l, hl', hstep⟩
  · cases hl.symm.trans hnone
  · obtain rfl := Option.some.inj (hl.symm.trans hl')
    exact Config.consumerStep_moves elem capacity hstep

theorem state_eq (h : ρ.actor t = none) : ρ.state (t + 1) = ρ.state t := by
  rcases ρ.next t with ⟨-, heq⟩ | ⟨l, hl, -⟩
  · exact heq
  · rw [actor, hl] at h
    cases h

/-- A step that is not the producer's leaves it where it is. -/
theorem producer_rests (h : ρ.actor t ≠ some .producer) :
    (ρ.state (t + 1)).producer = (ρ.state t).producer ∧ (ρ.mem (t + 1)).in_ = (ρ.mem t).in_
      ∧ ρ.offered (t + 1) = ρ.offered t := by
  have hcount := counters_reachable (ρ.reachable t)
  have hcount' := counters_reachable (ρ.reachable (t + 1))
  have hoffered : ρ.offered (t + 1) = ρ.offered t :=
    offered_succ fun c hl => h (by rw [actor, hl]; rfl)
  cases hl : ρ.label t with
  | none =>
      have hsame : ρ.state (t + 1) = ρ.state t := state_eq (by rw [actor, hl]; rfl)
      exact ⟨by rw [hsame], congrArg (·.shared.in_) hsame, hoffered⟩
  | some l =>
      cases l with
      | producer cmd => exact absurd (by rw [actor, hl]; rfl) h
      | consumer cmd =>
          have hmove := consumer_moves hl
          refine ⟨hmove.producer_eq, ?_, hoffered⟩
          rw [hcount'.in_eq, hcount.in_eq, hmove.published_eq]

/-- A step that is not the consumer's leaves it where it is. -/
theorem consumer_rests (h : ρ.actor t ≠ some .consumer) :
    (ρ.state (t + 1)).consumer = (ρ.state t).consumer ∧ (ρ.mem (t + 1)).out = (ρ.mem t).out
      ∧ ρ.started (t + 1) = ρ.started t := by
  have hcount := counters_reachable (ρ.reachable t)
  have hcount' := counters_reachable (ρ.reachable (t + 1))
  have hstarted : ρ.started (t + 1) = ρ.started t :=
    started_succ fun c hl => h (by rw [actor, hl]; rfl)
  cases hl : ρ.label t with
  | none =>
      have hsame : ρ.state (t + 1) = ρ.state t := state_eq (by rw [actor, hl]; rfl)
      exact ⟨by rw [hsame], congrArg (·.shared.out) hsame, hstarted⟩
  | some l =>
      cases l with
      | producer cmd =>
          have hmove := producer_moves hl
          refine ⟨hmove.consumer_eq, ?_, hstarted⟩
          rw [hcount'.out_eq, hcount.out_eq, hmove.frame.1]
      | consumer cmd => exact absurd (by rw [actor, hl]; rfl) h

theorem actor_cases {i : RingThread} (h : ρ.actor t = some i) :
    (i = .producer ∧ ∃ cmd, ρ.label t = some (.producer cmd))
      ∨ (i = .consumer ∧ ∃ cmd, ρ.label t = some (.consumer cmd)) := by
  obtain ⟨l, hl, rfl⟩ := Option.map_eq_some_iff.mp h
  cases l with
  | producer cmd => exact .inl ⟨rfl, cmd, hl⟩
  | consumer cmd => exact .inr ⟨rfl, cmd, hl⟩

/-- Both threads are somewhere in their calls, at every time. -/
theorem placed (ρ : RingRun elem capacity) (t : Nat) :
    ρ.ProducerPlaced t ∧ ρ.ConsumerPlaced t := by
  induction t with
  | zero =>
      obtain ⟨arr, hfresh⟩ := ρ.start
      constructor
      · exact producerPlaced_of_not fun _ _ _ h => by rw [hfresh] at h; cases h
      · exact consumerPlaced_of_not fun _ _ _ h => by rw [hfresh] at h; cases h
  | succ t ih =>
      obtain ⟨hproducer, hconsumer⟩ := ih
      constructor
      · by_cases hactor : ρ.actor t = some .producer
        · obtain ⟨-, cmd, hl⟩ | ⟨hi, -⟩ := actor_cases hactor
          · exact (producer_acts hl (producer_moves hl) hproducer).1
          · cases hi
        · obtain ⟨hsame, hin, hoffered⟩ := producer_rests hactor
          intro hp
          rw [hin, hoffered]
          exact hproducer (hsame.symm.trans hp)
      · by_cases hactor : ρ.actor t = some .consumer
        · obtain ⟨hi, -⟩ | ⟨-, cmd, hl⟩ := actor_cases hactor
          · cases hi
          · exact (consumer_acts hl (consumer_moves hl) hconsumer).1
        · obtain ⟨hsame, hout, hstarted⟩ := consumer_rests hactor
          intro hc
          rw [hout, hstarted]
          exact hconsumer (hsame.symm.trans hc)

/-! ## Calls and returns -/

theorem begins_producer {c : ProducerCall T} {offer : List T}
    (hl : ρ.label t = some (.producer (.call c)))
    (hoffer : (ρ.state t).producer.offers c = some offer) :
    ρ.status t .producer = .idle ∧ ρ.status (t + 1) .producer = .invoked (.produce c offer)
      ∧ (ρ.mem (t + 1)).contents = (ρ.mem t).contents := by
  have hidle : ρ.status t .producer = .idle := producer_status_idle fun _ _ _ hp => by
    rw [hp] at hoffer
    cases hoffer
  have hoffered := offered_call hl hoffer
  have hmove := producer_moves hl
  generalize hs' : ρ.state (t + 1) = s' at hmove
  have hmem : ρ.mem (t + 1) = s'.shared := congrArg Config.shared hs'
  have hprod : (ρ.state (t + 1)).producer = s'.producer := congrArg Config.producer hs'
  cases hmove with
  | call _ =>
      rw [producer_status_running hprod, hoffered, ProducerCall.status_begin, hmem]
      exact ⟨hidle, rfl, rfl⟩

theorem returns_producer {c : ProducerCall T} {offer : List T} {ans : ProducerAnswer}
    (hl : ρ.label t = some (.producer .step))
    (hp : (ρ.state t).producer = .running c offer (.ret (some ans))) :
    ρ.status t .producer = .applied (.produce c (ρ.offered t)) (.producer ans)
      ∧ ρ.status (t + 1) .producer = .idle ∧ (ρ.mem (t + 1)).contents = (ρ.mem t).contents := by
  have happlied : ρ.status t .producer = .applied (.produce c (ρ.offered t)) (.producer ans) := by
    rw [producer_status_running hp]
    rfl
  have hmove := producer_moves hl
  generalize hs' : ρ.state (t + 1) = s' at hmove
  have hmem : ρ.mem (t + 1) = s'.shared := congrArg Config.shared hs'
  have hprod : (ρ.state (t + 1)).producer = s'.producer := congrArg Config.producer hs'
  rw [happlied, hmem]
  cases hmove with
  | access hp' | again hp' => cases (Producer.running.inj (hp.symm.trans hp')).2.2
  | reserve _ | leave _ _ =>
      exact ⟨rfl, producer_status_idle fun _ _ _ h => (by cases hprod.symm.trans h), rfl⟩

theorem begins_consumer {c : ConsumerCall T} {started : List T}
    (hl : ρ.label t = some (.consumer (.call c)))
    (hstarts : (ρ.state t).consumer.starts c = some started) :
    ρ.status t .consumer = .idle ∧ ρ.status (t + 1) .consumer = .invoked (.consume c started)
      ∧ (ρ.mem (t + 1)).contents = (ρ.mem t).contents := by
  have hidle : ρ.status t .consumer = .idle := consumer_status_idle fun _ _ _ hc => by
    rw [hc] at hstarts
    cases hstarts
  have hstarted := started_call hl hstarts
  have hmove := consumer_moves hl
  generalize hs' : ρ.state (t + 1) = s' at hmove
  have hmem : ρ.mem (t + 1) = s'.shared := congrArg Config.shared hs'
  have hcons : (ρ.state (t + 1)).consumer = s'.consumer := congrArg Config.consumer hs'
  cases hmove with
  | call _ =>
      rw [consumer_status_running hcons, hstarted, ConsumerCall.status_begin, hmem]
      exact ⟨hidle, rfl, rfl⟩

theorem returns_consumer {c : ConsumerCall T} {taken : List T} {ans : ConsumerAnswer T}
    (hl : ρ.label t = some (.consumer .step))
    (hc : (ρ.state t).consumer = .running c taken (.ret ans)) :
    ρ.status t .consumer = .applied (.consume c (ρ.started t)) (.consumer ans)
      ∧ ρ.status (t + 1) .consumer = .idle ∧ (ρ.mem (t + 1)).contents = (ρ.mem t).contents := by
  have happlied : ρ.status t .consumer = .applied (.consume c (ρ.started t)) (.consumer ans) := by
    rw [consumer_status_running hc]
    rfl
  have hmove := consumer_moves hl
  generalize hs' : ρ.state (t + 1) = s' at hmove
  have hmem : ρ.mem (t + 1) = s'.shared := congrArg Config.shared hs'
  have hcons : (ρ.state (t + 1)).consumer = s'.consumer := congrArg Config.consumer hs'
  rw [happlied, hmem]
  cases hmove with
  | access hc' => cases (Consumer.running.inj (hc.symm.trans hc')).2.2
  | peek _ | leave _ _ =>
      exact ⟨rfl, consumer_status_idle fun _ _ _ h => (by cases hcons.symm.trans h), rfl⟩

theorem acts (ρ : RingRun elem capacity) :
    Acts (RingStep capacity) ρ.history (fun t => (ρ.mem t).contents) ρ.status ρ.actor where
  start i := by
    obtain ⟨arr, hfresh⟩ := ρ.start
    cases i with
    | producer => exact producer_status_idle fun _ _ _ h => by rw [hfresh] at h; cases h
    | consumer => exact consumer_status_idle fun _ _ _ h => by rw [hfresh] at h; cases h
  begins {t i o} hbegin := by
    cases i with
    | producer =>
        cases o with
        | produce c offer => exact begins_producer hbegin.1 hbegin.2
        | consume => cases hbegin
    | consumer =>
        cases o with
        | produce => cases hbegin
        | consume c started => exact begins_consumer hbegin.1 hbegin.2
  returns {t i r} hreturn := by
    cases i with
    | producer =>
        cases r with
        | producer ans =>
            obtain ⟨hl, c, offer, hp⟩ := hreturn
            obtain ⟨happlied, hnext⟩ := returns_producer hl hp
            exact ⟨⟨_, happlied⟩, hnext⟩
        | consumer => cases hreturn
    | consumer =>
        cases r with
        | producer => cases hreturn
        | consumer ans =>
            obtain ⟨hl, c, taken, hc⟩ := hreturn
            obtain ⟨happlied, hnext⟩ := returns_consumer hl hc
            exact ⟨⟨_, happlied⟩, hnext⟩
  others {t i} hactor := by
    cases i with
    | producer =>
        obtain ⟨hsame, hin, hoffered⟩ := producer_rests hactor
        simp only [status, hsame, hin, hoffered]
    | consumer =>
        obtain ⟨hsame, hout, hstarted⟩ := consumer_rests hactor
        simp only [status, hsame, hout, hstarted]
  idles {t} hactor := congrArg (·.shared.contents) (state_eq hactor)
  acts {t i} hactor hbegin hreturn := by
    rcases actor_cases hactor with ⟨rfl, cmd, hl⟩ | ⟨rfl, cmd, hl⟩
    · rcases (producer_acts hl (producer_moves hl) (ρ.placed t).1).2 with ⟨o, ho⟩ | ⟨r, hr⟩ | hacts
      · exact absurd ho (hbegin o)
      · exact absurd hr (hreturn r)
      · exact hacts
    · rcases (consumer_acts hl (consumer_moves hl) (ρ.placed t).2).2 with ⟨o, ho⟩ | ⟨r, hr⟩ | hacts
      · exact absurd ho (hbegin o)
      · exact absurd hr (hreturn r)
      · exact hacts

/-- The call that takes effect at time `t`. -/
def effect (ρ : RingRun elem capacity) : Nat → Option (RingThread × RingOp T × RingAnswer T) :=
  tookAt ρ.status ρ.actor

/-! ## Where a call takes effect -/

/-- At time `t` thread `i` bumps its own counter. -/
def Bumps (ρ : RingRun elem capacity) (t : Nat) : RingThread → Prop
  | .producer => ∃ v, ρ.ProducerPerforms t (.writeIn v)
  | .consumer => ∃ v, ρ.ConsumerPerforms t (.writeOut v)

/-- At time `t` thread `i` reads the other thread's counter. -/
def Looks (ρ : RingRun elem capacity) (t : Nat) : RingThread → Prop
  | .producer => ρ.ProducerPerforms t .readOut
  | .consumer => ρ.ConsumerPerforms t .readIn

theorem Looks.not_bumps {i : RingThread} (h : ρ.Looks t i) : ¬ ρ.Bumps t i := by
  intro hbumps
  cases i with
  | producer =>
      obtain ⟨-, c, offer, k, hp⟩ := h
      obtain ⟨v, -, c', offer', k', hp'⟩ := hbumps
      cases (Prog.act.inj (Producer.running.inj (hp.symm.trans hp')).2.2).1
  | consumer =>
      obtain ⟨-, c, taken, k, hc⟩ := h
      obtain ⟨v, -, c', taken', k', hc'⟩ := hbumps
      cases (Prog.act.inj (Consumer.running.inj (hc.symm.trans hc')).2.2).1

theorem producer_effect {o : RingOp T} {r : RingAnswer T}
    (h : ρ.effect t = some (.producer, o, r)) : ρ.Bumps t .producer ∨ ρ.Looks t .producer := by
  obtain ⟨hactor, hinvoked, o', happlied⟩ := tookAt_cases h
  obtain ⟨-, cmd, hl⟩ | ⟨hi, -⟩ := actor_cases hactor
  case inr => cases hi
  have hmove := producer_moves hl
  generalize hs' : ρ.state (t + 1) = s' at hmove
  have hmem : ρ.mem (t + 1) = s'.shared := congrArg Config.shared hs'
  have hprod : (ρ.state (t + 1)).producer = s'.producer := congrArg Config.producer hs'
  cases hmove with
  | call hoffer => cases (begins_producer hl hoffer).2.1.symm.trans happlied
  | @access c offer a k hp =>
      have hat := ((ρ.placed t).1 hp).2
      have hoffered : ρ.offered (t + 1) = ρ.offered t :=
        offered_succ fun c hc => by rw [hl] at hc; cases hc
      rw [producer_status_running hp] at hinvoked
      rw [producer_status_running hprod, hoffered, hmem] at happlied
      rcases hat.settled_by hinvoked happlied with rfl | ⟨v, rfl⟩
      · exact .inr ⟨hl, c, offer, k, hp⟩
      · exact .inl ⟨v, hl, c, offer, k, hp⟩
  | again hp =>
      rw [producer_status_running hprod, ProducerCall.status_begin] at happlied
      cases happlied
  | reserve hp | leave hp => cases (returns_producer hl hp).1.symm.trans hinvoked
  | write hp =>
      have hidle := producer_status_idle (ρ := ρ) fun _ _ _ h => by cases hp.symm.trans h
      cases hidle.symm.trans hinvoked

theorem consumer_effect {o : RingOp T} {r : RingAnswer T}
    (h : ρ.effect t = some (.consumer, o, r)) : ρ.Bumps t .consumer ∨ ρ.Looks t .consumer := by
  obtain ⟨hactor, hinvoked, o', happlied⟩ := tookAt_cases h
  obtain ⟨hi, -⟩ | ⟨-, cmd, hl⟩ := actor_cases hactor
  case inl => cases hi
  have hmove := consumer_moves hl
  generalize hs' : ρ.state (t + 1) = s' at hmove
  have hmem : ρ.mem (t + 1) = s'.shared := congrArg Config.shared hs'
  have hcons : (ρ.state (t + 1)).consumer = s'.consumer := congrArg Config.consumer hs'
  have hidle : (∀ c taken p, (ρ.state t).consumer ≠ .running c taken p) → False := by
    intro hnot
    cases (consumer_status_idle hnot).symm.trans hinvoked
  cases hmove with
  | call hstarts => cases (begins_consumer hl hstarts).2.1.symm.trans happlied
  | @access c taken a k hc =>
      have hat := ((ρ.placed t).2 hc).2
      have hstarted : ρ.started (t + 1) = ρ.started t :=
        started_succ fun c hc => by rw [hl] at hc; cases hc
      rw [consumer_status_running hc] at hinvoked
      rw [consumer_status_running hcons, hstarted, hmem] at happlied
      rcases hat.settled_by hinvoked happlied with rfl | ⟨v, rfl⟩
      · exact .inr ⟨hl, c, taken, k, hc⟩
      · exact .inl ⟨v, hl, c, taken, k, hc⟩
  | peek hc | leave hc => cases (returns_consumer hl hc).1.symm.trans hinvoked
  | look hc | read hc | drop hc => exact (hidle fun _ _ _ h => by cases hc.symm.trans h).elim

theorem producer_performed {c : ProducerCall T} {offer : List T} {a : Access T}
    {k : a.Answer → QueueProg T (Option ProducerAnswer)}
    (hl : ρ.label t = some (.producer .step))
    (hp : (ρ.state t).producer = .running c offer (.act a k)) :
    ∃ offer', (ρ.state (t + 1)).producer
      = .running c offer' (k ((ρ.mem t).toFifo.perform elem a).1) := by
  have hmove := producer_moves hl
  generalize ρ.state (t + 1) = s' at hmove
  cases hmove with
  | access hp' =>
      obtain ⟨rfl, rfl, hact⟩ := Producer.running.inj (hp.symm.trans hp')
      obtain ⟨rfl, hk⟩ := Prog.act.inj hact
      obtain rfl := eq_of_heq hk
      exact ⟨_, rfl⟩
  | again hp' | reserve hp' | leave hp' => cases (Producer.running.inj (hp.symm.trans hp')).2.2

theorem consumer_performed {c : ConsumerCall T} {taken : List T} {a : Access T}
    {k : a.Answer → QueueProg T (ConsumerAnswer T)} (hl : ρ.label t = some (.consumer .step))
    (hc : (ρ.state t).consumer = .running c taken (.act a k)) :
    ∃ taken', (ρ.state (t + 1)).consumer
      = .running c taken' (k ((ρ.mem t).toFifo.perform elem a).1) := by
  have hmove := consumer_moves hl
  generalize ρ.state (t + 1) = s' at hmove
  cases hmove with
  | access hc' =>
      obtain ⟨rfl, rfl, hact⟩ := Consumer.running.inj (hc.symm.trans hc')
      obtain ⟨rfl, hk⟩ := Prog.act.inj hact
      obtain rfl := eq_of_heq hk
      exact ⟨_, rfl⟩
  | peek hc' | leave hc' => cases (Consumer.running.inj (hc.symm.trans hc')).2.2

/-- A call that bumps its counter takes effect there. -/
theorem Bumps.takes {i : RingThread} (h : ρ.Bumps t i) : ∃ e, ρ.effect t = some (i, e) := by
  cases i with
  | producer =>
      obtain ⟨v, hl, c, offer, k, hp⟩ := h
      obtain ⟨ans, hk⟩ := ((ρ.placed t).1 hp).2.bump
      obtain ⟨offer', hnext⟩ := producer_performed hl hp
      have hinvoked : ρ.status t .producer = .invoked (.produce c (ρ.offered t)) := by
        rw [producer_status_running hp, ProducerCall.status_invoked (.inl rfl)]
      have happlied : ρ.status (t + 1) .producer
          = .applied (.produce c (ρ.offered (t + 1))) (.producer ans) := by
        rw [producer_status_running hnext]
        exact ProducerCall.status_applied (congrArg (settlesIn _) hk)
      exact ⟨_, tookAt_eq (by rw [actor, hl]; rfl) hinvoked happlied⟩
  | consumer =>
      obtain ⟨v, hl, c, taken, k, hc⟩ := h
      obtain ⟨ans, hk⟩ := ((ρ.placed t).2 hc).2.bump
      obtain ⟨taken', hnext⟩ := consumer_performed hl hc
      have hinvoked : ρ.status t .consumer = .invoked (.consume c (ρ.started t)) := by
        rw [consumer_status_running hc, ConsumerCall.status_invoked rfl]
      have happlied : ρ.status (t + 1) .consumer
          = .applied (.consume c (ρ.started (t + 1))) (.consumer ans) := by
        rw [consumer_status_running hnext]
        exact ConsumerCall.status_applied (congrArg (settlesOut _) hk)
      exact ⟨_, tookAt_eq (by rw [actor, hl]; rfl) hinvoked happlied⟩

/-- A call takes effect where it bumps its own counter or, if it does not bump it
at any time, where it reads the other thread's. -/
theorem effect_where {i : RingThread} {o : RingOp T} {r : RingAnswer T}
    (h : ρ.effect t = some (i, o, r)) :
    ρ.Bumps t i ∨ ρ.Looks t i ∧ ∀ a u, ρ.history.Open i a o t → ρ.history.Open i a o u →
      ¬ ρ.Bumps u i := by
  have hplace : ρ.Bumps t i ∨ ρ.Looks t i := by
    cases i with
    | producer => exact producer_effect h
    | consumer => exact consumer_effect h
  refine hplace.imp_right fun hlooks => ⟨hlooks, fun a u ht hu hbumps => ?_⟩
  obtain ⟨e, heffect⟩ := hbumps.takes
  obtain rfl := ρ.acts.linearizes.once ht hu h heffect
  exact hlooks.not_bumps hbumps

end RingRun

/-- In every run, under any schedule of the producer and the consumer, the calls
of the ring are linearizable: each takes effect at one time between its call and
its return, and at these times the elements of the ring change as those of a
bounded list, and the calls answer as it does. So up to any time the run is a
sequential execution of the calls that have taken effect. The time of the effect is
that of the access that bumps the call's own counter or, in a call that bumps none,
of an access that reads the other thread's. -/
theorem ring_linearizable (ρ : RingRun elem capacity) :
    Linearizes (RingStep capacity) ρ.history (fun t => (ρ.mem t).contents) ρ.effect
      ∧ (∀ t, Replays (RingStep capacity) (log ρ.effect t) [] (ρ.mem t).contents)
      ∧ ∀ t i o r, ρ.effect t = some (i, o, r) →
          ρ.Bumps t i ∨ ρ.Looks t i ∧ ∀ a u, ρ.history.Open i a o t → ρ.history.Open i a o u →
            ¬ ρ.Bumps u i := by
  have hlinearizes : Linearizes (RingStep capacity) ρ.history (fun t => (ρ.mem t).contents)
      ρ.effect := ρ.acts.linearizes
  obtain ⟨arr, hfresh⟩ := ρ.start
  have hempty : (ρ.mem 0).contents = [] := congrArg (·.shared.contents) hfresh
  refine ⟨hlinearizes, fun t => ?_, fun t i o r heffect => RingRun.effect_where heffect⟩
  have hreplays := hlinearizes.replays t
  rw [hempty] at hreplays
  exact hreplays

end LockFreeRingBuf
