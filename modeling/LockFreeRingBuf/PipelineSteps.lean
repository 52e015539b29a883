import LockFreeRingBuf.Pipeline

/-!
# What a step of the pipeline can do

One inversion lemma for each thread. The steps on a ring and on the pool
stay steps of those systems (`ConsumerSteps`, `ProducerSteps`,
`WriterSteps`), so that what is known of them carries over: each ring of a
reachable pipeline is a reachable ring, and its pool a reachable pool.
-/

namespace LockFreeRingBuf

open Bytes Transition

variable {P : Params}

namespace Pipeline

/-- The ring that `RingBufBG` is at. -/
abbrev ring (s : Pipeline P) : Config (UncompressedEntry P.argNum) := s.rings s.bg.index

/-- Replace the ring that `RingBufBG` is at. -/
abbrev setRing (s : Pipeline P) (r : Config (UncompressedEntry P.argNum)) :
    Nat → Config (UncompressedEntry P.argNum) :=
  Function.update s.rings s.bg.index r

abbrev ConsumerSteps (s : Pipeline P) (c : ConsumerCmd (UncompressedEntry P.argNum))
    (r : Config (UncompressedEntry P.argNum)) : Prop :=
  s.ring.consumerStep (element P.argNum) P.ringBufSize c = some r

abbrev ProducerSteps (s : Pipeline P) (i : Nat) (c : ProducerCmd (UncompressedEntry P.argNum))
    (r : Config (UncompressedEntry P.argNum)) : Prop :=
  (s.rings i).producerStep (element P.argNum) P.ringBufSize c = some r

abbrev WriterSteps (s : Pipeline P) (c : PoolCmd (Record P.argNum))
    (pool : Pool (Record P.argNum)) : Prop :=
  Pool.step P.cacheBufQueueSize (.writer c) s.pool = some pool

/-- Everything a step of `RingBufBG` can do. -/
inductive BgMoves (s : Pipeline P) : Pipeline P → Prop
  | take {pool} : s.bg.pc = .take → s.WriterSteps .take pool →
      BgMoves s { s with pool, bg := { s.bg with pc := .outer } }
  | enter : s.bg.pc = .outer → s.bg.j < (P.addNum * P.threadNum : Nat) →
      BgMoves s { s with bg := { s.bg with pc := .forTest, nPerItr := 0, index := 0 } }
  | leave : s.bg.pc = .outer → ¬ s.bg.j < (P.addNum * P.threadNum : Nat) →
      BgMoves s { s with bg := { s.bg with pc := .exitFlag } }
  | peek {r} : s.bg.pc = .forTest → s.bg.index < P.threadNum →
      s.ConsumerSteps (.call (.peek (BitVec.ofNat 32 P.batchSizePop))) r →
      BgMoves s { s with rings := s.setRing r, bg := { s.bg with pc := .peeking } }
  | iterate : s.bg.pc = .forTest → ¬ s.bg.index < P.threadNum →
      BgMoves s { s with bg := { s.bg with pc := .iterEnd } }
  | peeking {r} : s.bg.pc = .peeking → s.ConsumerSteps .step r →
      (∀ n p taken, r.consumer ≠ .peeked n p taken) →
      BgMoves s { s with rings := s.setRing r }
  | peeked {r n p taken} : s.bg.pc = .peeking → s.ConsumerSteps .step r →
      r.consumer = .peeked n p taken →
      BgMoves s { s with rings := s.setRing r, bg := { s.bg with pc := .peekTest, n } }
  | skip {r} : s.bg.pc = .peekTest → s.bg.n = 0#32 → s.ConsumerSteps .drop r →
      BgMoves s { s with
        rings := s.setRing r, bg := { s.bg with pc := .forTest, index := s.bg.index + 1 } }
  | batch : s.bg.pc = .peekTest → s.bg.n ≠ 0#32 →
      BgMoves s { s with bg := { s.bg with pc := .copyTest, count := s.bg.n.toInt } }
  | copy : s.bg.pc = .copyTest → 0 < s.bg.count →
      BgMoves s { s with bg := { s.bg with pc := .avail } }
  | release {r} : s.bg.pc = .copyTest → ¬ 0 < s.bg.count →
      s.ConsumerSteps (.call (.consume s.bg.n)) r →
      BgMoves s { s with rings := s.setRing r, bg := { s.bg with pc := .consuming } }
  | fits {e b} : s.bg.pc = .avail → s.stageBufPop = some e → s.pool.pBuffer = some b →
      e.entrySize < (s.pool.heap b).avail P.sinkBufferSize →
      BgMoves s { s with bg := { s.bg with pc := .fmtId } }
  | full {e b} : s.bg.pc = .avail → s.stageBufPop = some e → s.pool.pBuffer = some b →
      ¬ e.entrySize < (s.pool.heap b).avail P.sinkBufferSize →
      BgMoves s { s with bg := { s.bg with pc := .swapFull } }
  | fmtId {e b pool} : s.bg.pc = .fmtId → s.stageBufPop = some e → s.pool.pBuffer = some b →
      s.WriterSteps (.store (s.pool.heap b).cur_ (littleEndian 4 e.fmtId)) pool →
      BgMoves s { s with pool, bg := { s.bg with pc := .timestamp } }
  | timestamp {e b pool} : s.bg.pc = .timestamp → s.stageBufPop = some e → s.pool.pBuffer = some b →
      s.WriterSteps (.store ((s.pool.heap b).cur_ + 4) (littleEndian 8 e.timestamp)) pool →
      BgMoves s { s with pool, bg := { s.bg with pc := .add12 } }
  | add12 {pool} : s.bg.pc = .add12 → s.WriterSteps (.add 12) pool →
      BgMoves s { s with pool, bg := { s.bg with pc := .append } }
  | append {e r pool} : s.bg.pc = .append → s.stageBufPop = some e → s.ConsumerSteps .read r →
      s.WriterSteps (.append e.argData.toList ⟨s.bg.index, s.drainIters, e⟩) pool →
      BgMoves s { s with
        rings := s.setRing r, pool
        bg := { s.bg with pc := .copyTest, count := s.bg.count - 1 } }
  | swapFull {pool} : s.bg.pc = .swapFull → s.WriterSteps .handOff pool →
      BgMoves s { s with pool, bg := { s.bg with pc := .copyTest, nItrWithNonEmptyBuf := 0 } }
  | consuming {r} : s.bg.pc = .consuming → s.ConsumerSteps .step r → r.consumer ≠ .idle →
      BgMoves s { s with rings := s.setRing r }
  | consumed {r} : s.bg.pc = .consuming → s.ConsumerSteps .step r → r.consumer = .idle →
      BgMoves s { s with rings := s.setRing r, bg := { s.bg with pc := .tally } }
  | tally : s.bg.pc = .tally →
      BgMoves s { s with bg := { s.bg with
        pc := .forTest, nPerItr := s.bg.nPerItr + s.bg.n.toInt, index := s.bg.index + 1 } }
  | idleIter : s.bg.pc = .iterEnd → s.bg.nPerItr = 0 →
      BgMoves s { s with bg := { s.bg with pc := .outer, j := s.bg.j + s.bg.nPerItr } }
  | drainIter : s.bg.pc = .iterEnd → s.bg.nPerItr ≠ 0 → ¬ s.bg.nItrWithNonEmptyBuf + 1 > 2000 →
      BgMoves s { s with
        bg := { s.bg with
          pc := .outer, j := s.bg.j + s.bg.nPerItr
          nItrWithNonEmptyBuf := s.bg.nItrWithNonEmptyBuf + 1 }
        drainIters := s.drainIters + 1 }
  | flushIter : s.bg.pc = .iterEnd → s.bg.nPerItr ≠ 0 → s.bg.nItrWithNonEmptyBuf + 1 > 2000 →
      BgMoves s { s with
        bg := { s.bg with
          pc := .flush, j := s.bg.j + s.bg.nPerItr
          nItrWithNonEmptyBuf := s.bg.nItrWithNonEmptyBuf + 1 }
        drainIters := s.drainIters + 1 }
  | flush {pool} : s.bg.pc = .flush → s.WriterSteps .handOff pool →
      BgMoves s { s with pool, bg := { s.bg with pc := .outer, nItrWithNonEmptyBuf := 0 } }
  | exitFlag {pool} : s.bg.pc = .exitFlag → s.WriterSteps .exit pool →
      BgMoves s { s with pool, bg := { s.bg with pc := .done } }

theorem consume_moves {s s' : Pipeline P} {c : ConsumerCmd (UncompressedEntry P.argNum)}
    {f : Config (UncompressedEntry P.argNum) → RingBufBG} (h : s.consume c f = some s') :
    ∃ r, s.ConsumerSteps c r ∧ s' = { s with rings := s.setRing r, bg := f r } := by
  obtain ⟨r, hr, rfl⟩ := Option.map_eq_some_iff.mp h
  exact ⟨r, hr, rfl⟩

theorem fill_moves {s s' : Pipeline P} {c : PoolCmd (Record P.argNum)} {bg : RingBufBG}
    (h : s.fill c bg = some s') : ∃ pool, s.WriterSteps c pool ∧ s' = { s with pool, bg } := by
  obtain ⟨pool, hpool, rfl⟩ := Option.map_eq_some_iff.mp h
  exact ⟨pool, hpool, rfl⟩

/-- Looking at the peeked entry leaves the ring as it is. -/
theorem look_moves {s s' : Pipeline P} {f : Config (UncompressedEntry P.argNum) → RingBufBG}
    (h : s.consume .look f = some s') : s' = { s with bg := f s.ring } := by
  obtain ⟨r, hr, rfl⟩ := consume_moves h
  cases Config.consumerStep_moves _ _ hr with
  | look hc hlt => rw [setRing, Function.update_eq_self]

theorem buffer?_eq_some {s : Pipeline P} {b : SinkBuffer} (h : s.buffer? = some b) :
    ∃ i, s.pool.pBuffer = some i ∧ s.pool.heap i = b :=
  Option.map_eq_some_iff.mp h

theorem bgStep_moves {s s' : Pipeline P} (h : s.bgStep = some s') : s.BgMoves s' := by
  unfold bgStep at h
  cases hpc : s.bg.pc with
  | take =>
      simp only [hpc] at h
      obtain ⟨pool, hpool, rfl⟩ := fill_moves h
      exact .take hpc hpool
  | outer =>
      simp only [hpc] at h
      split at h
      · next hlt => obtain rfl := Option.some.inj h; exact .enter hpc hlt
      · next hge => obtain rfl := Option.some.inj h; exact .leave hpc hge
  | forTest =>
      simp only [hpc] at h
      split at h
      · next hlt =>
          obtain ⟨r, hr, rfl⟩ := consume_moves h
          exact .peek hpc hlt hr
      · next hge => obtain rfl := Option.some.inj h; exact .iterate hpc hge
  | peeking =>
      simp only [hpc] at h
      obtain ⟨r, hr, rfl⟩ := consume_moves h
      split
      · next n p taken hc => exact .peeked hpc hr hc
      · next hc => exact .peeking hpc hr hc
  | peekTest =>
      simp only [hpc] at h
      split at h
      · next hzero =>
          obtain ⟨r, hr, rfl⟩ := consume_moves h
          exact .skip hpc hzero hr
      · next hzero => obtain rfl := Option.some.inj h; exact .batch hpc hzero
  | copyTest =>
      simp only [hpc] at h
      split at h
      · next hpos => obtain rfl := Option.some.inj h; exact .copy hpc hpos
      · next hpos =>
          obtain ⟨r, hr, rfl⟩ := consume_moves h
          exact .release hpc hpos hr
  | avail =>
      simp only [hpc] at h
      obtain ⟨e, he, h⟩ := Option.bind_eq_some_iff.mp h
      obtain ⟨b, hb, h⟩ := Option.bind_eq_some_iff.mp h
      obtain ⟨i, hi, rfl⟩ := buffer?_eq_some hb
      obtain rfl := look_moves h
      split
      · next hlt => exact .fits hpc he hi hlt
      · next hge => exact .full hpc he hi hge
  | fmtId =>
      simp only [hpc] at h
      obtain ⟨e, he, h⟩ := Option.bind_eq_some_iff.mp h
      obtain ⟨b, hb, h⟩ := Option.bind_eq_some_iff.mp h
      obtain ⟨i, hi, rfl⟩ := buffer?_eq_some hb
      obtain ⟨u, hu, h⟩ := Option.bind_eq_some_iff.mp h
      obtain rfl := look_moves hu
      obtain ⟨pool, hpool, rfl⟩ := fill_moves h
      exact .fmtId hpc he hi hpool
  | timestamp =>
      simp only [hpc] at h
      obtain ⟨e, he, h⟩ := Option.bind_eq_some_iff.mp h
      obtain ⟨b, hb, h⟩ := Option.bind_eq_some_iff.mp h
      obtain ⟨i, hi, rfl⟩ := buffer?_eq_some hb
      obtain ⟨u, hu, h⟩ := Option.bind_eq_some_iff.mp h
      obtain rfl := look_moves hu
      obtain ⟨pool, hpool, rfl⟩ := fill_moves h
      exact .timestamp hpc he hi hpool
  | add12 =>
      simp only [hpc] at h
      obtain ⟨pool, hpool, rfl⟩ := fill_moves h
      exact .add12 hpc hpool
  | append =>
      simp only [hpc] at h
      obtain ⟨e, he, h⟩ := Option.bind_eq_some_iff.mp h
      obtain ⟨u, hu, h⟩ := Option.bind_eq_some_iff.mp h
      obtain ⟨r, hr, rfl⟩ := consume_moves hu
      obtain ⟨pool, hpool, rfl⟩ := fill_moves h
      exact .append hpc he hr hpool
  | swapFull =>
      simp only [hpc] at h
      obtain ⟨pool, hpool, rfl⟩ := fill_moves h
      exact .swapFull hpc hpool
  | consuming =>
      simp only [hpc] at h
      obtain ⟨r, hr, rfl⟩ := consume_moves h
      split
      · next hc => exact .consumed hpc hr hc
      · next hc => exact .consuming hpc hr hc
  | tally => simp only [hpc] at h; obtain rfl := Option.some.inj h; exact .tally hpc
  | iterEnd =>
      simp only [hpc] at h
      split at h
      · next hzero => obtain rfl := Option.some.inj h; exact .idleIter hpc hzero
      · next hzero =>
          obtain rfl := Option.some.inj h
          split
          · next hflush => exact .flushIter hpc hzero hflush
          · next hflush => exact .drainIter hpc hzero hflush
  | flush =>
      simp only [hpc] at h
      obtain ⟨pool, hpool, rfl⟩ := fill_moves h
      exact .flush hpc hpool
  | exitFlag =>
      simp only [hpc] at h
      obtain ⟨pool, hpool, rfl⟩ := fill_moves h
      exact .exitFlag hpc hpool
  | done => simp only [hpc] at h; cases h

/-- Everything a step of thread `i` in `add` can do. -/
inductive AddMoves (i : Nat) (tsc : BitVec 64) (s : Pipeline P) : Pipeline P → Prop
  | enter : (s.adds i).pc = .test → (s.adds i).i < P.addNum →
      AddMoves i tsc s
        { s with adds := Function.update s.adds i { s.adds i with pc := .rdtsc } }
  | stop : (s.adds i).pc = .test → ¬ (s.adds i).i < P.addNum →
      AddMoves i tsc s { s with adds := Function.update s.adds i { s.adds i with pc := .done } }
  | reserve {r} : (s.adds i).pc = .rdtsc →
      s.ProducerSteps i (.call .reserve1) r →
      AddMoves i tsc s { s with
        rings := Function.update s.rings i r
        adds := Function.update s.adds i { s.adds i with pc := .reserving, t := tsc } }
  | reserving {r} : (s.adds i).pc = .reserving →
      s.ProducerSteps i .step r →
      (∀ p v, r.producer ≠ .reserved p v) →
      AddMoves i tsc s { s with rings := Function.update s.rings i r }
  | reserved {r p v} : (s.adds i).pc = .reserving →
      s.ProducerSteps i .step r →
      r.producer = .reserved p v →
      AddMoves i tsc s { s with
        rings := Function.update s.rings i r
        adds := Function.update s.adds i { s.adds i with pc := .entrySize } }
  | entrySize {r} : (s.adds i).pc = .entrySize →
      s.ProducerSteps i
        (.write fun e => { e with entrySize := (P.header i (s.adds i).i).entrySize }) r →
      AddMoves i tsc s { s with
        rings := Function.update s.rings i r
        adds := Function.update s.adds i { s.adds i with pc := .fmtId } }
  | fmtId {r} : (s.adds i).pc = .fmtId →
      s.ProducerSteps i (.write fun e => { e with fmtId := (P.header i (s.adds i).i).fmtId }) r →
      AddMoves i tsc s { s with
        rings := Function.update s.rings i r
        adds := Function.update s.adds i { s.adds i with pc := .timestamp } }
  | timestamp {r} : (s.adds i).pc = .timestamp →
      s.ProducerSteps i (.write fun e => { e with timestamp := (s.adds i).t }) r →
      AddMoves i tsc s { s with
        rings := Function.update s.rings i r
        adds := Function.update s.adds i { s.adds i with pc := .finish } }
  | finish {r} : (s.adds i).pc = .finish →
      s.ProducerSteps i (.call .finish1) r →
      AddMoves i tsc s { s with
        rings := Function.update s.rings i r
        adds := Function.update s.adds i { s.adds i with pc := .finishing } }
  | finishing {r} : (s.adds i).pc = .finishing →
      s.ProducerSteps i .step r → r.producer ≠ .idle →
      AddMoves i tsc s { s with rings := Function.update s.rings i r }
  | finished {r} : (s.adds i).pc = .finishing →
      s.ProducerSteps i .step r → r.producer = .idle →
      AddMoves i tsc s { s with
        rings := Function.update s.rings i r
        adds := Function.update s.adds i { s.adds i with pc := .test, i := (s.adds i).i + 1 } }

theorem produce_moves {s s' : Pipeline P} {i : Nat}
    {c : ProducerCmd (UncompressedEntry P.argNum)}
    {f : Config (UncompressedEntry P.argNum) → AddThread} (h : s.produce i c f = some s') :
    ∃ r, s.ProducerSteps i c r
      ∧ s' = { s with
        rings := Function.update s.rings i r, adds := Function.update s.adds i (f r) } := by
  obtain ⟨r, hr, rfl⟩ := Option.map_eq_some_iff.mp h
  exact ⟨r, hr, rfl⟩

theorem addStep_moves {s s' : Pipeline P} {i : Nat} {tsc : BitVec 64}
    (h : s.addStep i tsc = some s') : s.AddMoves i tsc s' := by
  unfold addStep at h
  cases hpc : (s.adds i).pc with
  | test =>
      simp only [hpc] at h
      obtain rfl := Option.some.inj h
      split
      · next hlt => exact .enter hpc hlt
      · next hge => exact .stop hpc hge
  | rdtsc =>
      simp only [hpc] at h
      obtain ⟨r, hr, rfl⟩ := produce_moves h
      exact .reserve hpc hr
  | reserving =>
      simp only [hpc] at h
      obtain ⟨r, hr, rfl⟩ := produce_moves h
      split
      · next p v hp => exact .reserved hpc hr hp
      · next hp =>
          rw [Function.update_eq_self]
          exact .reserving hpc hr hp
  | entrySize =>
      simp only [hpc] at h
      obtain ⟨r, hr, rfl⟩ := produce_moves h
      exact .entrySize hpc hr
  | fmtId =>
      simp only [hpc] at h
      obtain ⟨r, hr, rfl⟩ := produce_moves h
      exact .fmtId hpc hr
  | timestamp =>
      simp only [hpc] at h
      obtain ⟨r, hr, rfl⟩ := produce_moves h
      exact .timestamp hpc hr
  | finish =>
      simp only [hpc] at h
      obtain ⟨r, hr, rfl⟩ := produce_moves h
      exact .finish hpc hr
  | finishing =>
      simp only [hpc] at h
      obtain ⟨r, hr, rfl⟩ := produce_moves h
      split
      · next hp => exact .finished hpc hr hp
      · next hp =>
          rw [Function.update_eq_self]
          exact .finishing hpc hr hp
  | done => simp only [hpc] at h; cases h

/-- Everything a step of the pipeline can do. -/
inductive Moves (s : Pipeline P) : PipelineLabel → Pipeline P → Prop
  | add {i tsc s'} : i < P.threadNum → s.AddMoves i tsc s' → Moves s (.add i tsc) s'
  | bg {s'} : s.BgMoves s' → Moves s .bg s'
  | sink {pool} : Pool.step P.cacheBufQueueSize .sink s.pool = some pool →
      Moves s .sink { s with pool }

theorem step_moves {s s' : Pipeline P} {l : PipelineLabel} (h : Pipeline.step l s = some s') :
    s.Moves l s' := by
  cases l with
  | add i tsc =>
      obtain ⟨hi, hstep⟩ := Option.ite_none_right_eq_some.mp h
      exact .add hi (addStep_moves hstep)
  | bg => exact .bg (bgStep_moves h)
  | sink =>
      obtain ⟨pool, hpool, rfl⟩ := Option.map_eq_some_iff.mp h
      exact .sink hpool

/-! ## The rings of a reachable pipeline -/

/-- `RingBufBG` touches the ring it is at, and none in the other steps. -/
theorem BgMoves.rings_cases {s s' : Pipeline P} (hmove : s.BgMoves s') :
    s'.rings = s.rings ∨ ∃ c r, s.ConsumerSteps c r ∧ s'.rings = s.setRing r := by
  cases hmove with
  | peek _ _ hr | peeking _ hr _ | peeked _ hr _ | skip _ _ hr | release _ _ hr
  | append _ _ hr _ | consuming _ hr _ | consumed _ hr _ => exact .inr ⟨_, _, hr, rfl⟩
  | _ => exact .inl rfl

/-- A step of a producer touches its own ring or none. -/
theorem AddMoves.rings_cases {s s' : Pipeline P} {k : Nat} {tsc : BitVec 64}
    (hmove : s.AddMoves k tsc s') :
    s'.rings = s.rings
      ∨ ∃ c r, s.ProducerSteps k c r ∧ s'.rings = Function.update s.rings k r := by
  cases hmove with
  | reserve _ hr | reserving _ hr _ | reserved _ hr _ | entrySize _ hr | fmtId _ hr
  | timestamp _ hr | finish _ hr | finishing _ hr _ | finished _ hr _ =>
      exact .inr ⟨_, _, hr, rfl⟩
  | _ => exact .inl rfl

/-- A step of `RingBufBG` leaves the pool alone or tells it one thing, and the
flag comes last. -/
theorem BgMoves.pool_cases {s s' : Pipeline P} (hmove : s.BgMoves s') :
    (s.bg.pc ≠ .take ∧ s'.pool = s.pool)
      ∨ ∃ c, s.WriterSteps c s'.pool ∧ (c = .exit → s.bg.pc = .exitFlag) := by
  cases hmove with
  | take _ hpool | fmtId _ _ _ hpool | timestamp _ _ _ hpool | add12 _ hpool
  | append _ _ _ hpool | swapFull _ hpool | flush _ hpool =>
      refine .inr ⟨_, hpool, fun hc => ?_⟩
      cases hc
  | exitFlag hpc hpool => exact .inr ⟨_, hpool, fun _ => hpc⟩
  | _ => exact .inl ⟨by simp [‹s.bg.pc = _›], rfl⟩

theorem setRing_cases {s : Pipeline P} {c : ConsumerCmd (UncompressedEntry P.argNum)}
    {r : Config (UncompressedEntry P.argNum)} (h : s.ConsumerSteps c r) (i : Nat) :
    s.setRing r i = s.rings i
      ∨ ∃ l, Config.step (element P.argNum) P.ringBufSize l (s.rings i) = some (s.setRing r i) := by
  by_cases hi : i = s.bg.index
  · subst hi
    rw [setRing, Function.update_self]
    exact .inr ⟨.consumer c, h⟩
  · exact .inl (Function.update_of_ne hi _ _)

theorem updateRing_cases {s : Pipeline P} {k : Nat}
    {c : ProducerCmd (UncompressedEntry P.argNum)} {r : Config (UncompressedEntry P.argNum)}
    (h : s.ProducerSteps k c r) (i : Nat) :
    Function.update s.rings k r i = s.rings i
      ∨ ∃ l, Config.step (element P.argNum) P.ringBufSize l (s.rings i)
        = some (Function.update s.rings k r i) := by
  by_cases hi : i = k
  · subst hi
    rw [Function.update_self]
    exact .inr ⟨.producer c, h⟩
  · exact .inl (Function.update_of_ne hi _ _)

theorem BgMoves.ring_step {s s' : Pipeline P} (hmove : s.BgMoves s') (i : Nat) :
    s'.rings i = s.rings i
      ∨ ∃ l, Config.step (element P.argNum) P.ringBufSize l (s.rings i) = some (s'.rings i) := by
  rcases hmove.rings_cases with hrings | ⟨c, r, hr, hrings⟩
  · exact .inl (congrFun hrings i)
  · rw [hrings]
    exact setRing_cases hr i

theorem AddMoves.ring_step {s s' : Pipeline P} {k : Nat} {tsc : BitVec 64}
    (hmove : s.AddMoves k tsc s') (i : Nat) :
    s'.rings i = s.rings i
      ∨ ∃ l, Config.step (element P.argNum) P.ringBufSize l (s.rings i) = some (s'.rings i) := by
  rcases hmove.rings_cases with hrings | ⟨c, r, hr, hrings⟩
  · exact .inl (congrFun hrings i)
  · rw [hrings]
    exact updateRing_cases hr i

theorem ring_reachable {s : Pipeline P} (h : (pipeline P).Reachable s) (i : Nat) :
    (ringSystem (element P.argNum) P.ringBufSize).Reachable (s.rings i) := by
  refine h.project (π := fun s => s.rings i) ?_ ?_
  · rintro s ⟨arr, memory, rfl⟩
    exact ⟨arr i, rfl⟩
  · intro l u u' hstep
    cases step_moves hstep with
    | sink hpool => exact .inl rfl
    | bg hmove => exact hmove.ring_step i
    | add _ hmove => exact hmove.ring_step i

/-! ## What a step leaves alone in the rings -/

theorem setRing_frame {s : Pipeline P} {c : ConsumerCmd (UncompressedEntry P.argNum)}
    {r : Config (UncompressedEntry P.argNum)} (hr : s.ConsumerSteps c r) (i : Nat) :
    (s.setRing r i).producer = (s.rings i).producer
      ∧ (s.setRing r i).shared.published = (s.rings i).shared.published := by
  have hmove := Config.consumerStep_moves _ _ hr
  by_cases hi : i = s.bg.index
  · subst hi
    rw [setRing, Function.update_self]
    exact ⟨hmove.producer_eq, hmove.published_eq⟩
  · rw [setRing, Function.update_of_ne hi]
    exact ⟨rfl, rfl⟩

theorem updateRing_frame {s : Pipeline P} {k : Nat}
    {c : ProducerCmd (UncompressedEntry P.argNum)} {r : Config (UncompressedEntry P.argNum)}
    (hr : s.ProducerSteps k c r) (i : Nat) :
    (Function.update s.rings k r i).consumer = (s.rings i).consumer
      ∧ (Function.update s.rings k r i).shared.consumed = (s.rings i).shared.consumed
      ∧ (s.rings i).shared.published <+: (Function.update s.rings k r i).shared.published := by
  have hmove := Config.producerStep_moves _ _ hr
  by_cases hi : i = k
  · subst hi
    rw [Function.update_self]
    exact ⟨hmove.consumer_eq, hmove.frame⟩
  · rw [Function.update_of_ne hi]
    exact ⟨rfl, rfl, List.prefix_rfl⟩

/-- `RingBufBG` publishes nothing and moves no producer. -/
theorem BgMoves.ring_frame {s s' : Pipeline P} (hmove : s.BgMoves s') (i : Nat) :
    (s'.rings i).producer = (s.rings i).producer
      ∧ (s'.rings i).shared.published = (s.rings i).shared.published := by
  rcases hmove.rings_cases with hrings | ⟨c, r, hr, hrings⟩
  · rw [hrings]
    exact ⟨rfl, rfl⟩
  · rw [hrings]
    exact setRing_frame hr i

/-- A producer consumes nothing, moves no consumer, and only adds to what it
has published. -/
theorem AddMoves.ring_frame {s s' : Pipeline P} {k : Nat} {tsc : BitVec 64}
    (hmove : s.AddMoves k tsc s') (i : Nat) :
    (s'.rings i).consumer = (s.rings i).consumer
      ∧ (s'.rings i).shared.consumed = (s.rings i).shared.consumed
      ∧ (s.rings i).shared.published <+: (s'.rings i).shared.published := by
  rcases hmove.rings_cases with hrings | ⟨c, r, hr, hrings⟩
  · rw [hrings]
    exact ⟨rfl, rfl, List.prefix_rfl⟩
  · rw [hrings]
    exact updateRing_frame hr i

/-! ## The pool of a reachable pipeline -/

theorem pool_step {s s' : Pipeline P} {l : PipelineLabel} (h : Pipeline.step l s = some s') :
    s'.pool = s.pool ∨ ∃ c, Pool.step P.cacheBufQueueSize c s.pool = some s'.pool := by
  cases step_moves h with
  | sink hpool => exact .inr ⟨.sink, hpool⟩
  | bg hmove =>
      rcases hmove.pool_cases with ⟨-, hsame⟩ | ⟨c, hpool, -⟩
      · exact .inl hsame
      · exact .inr ⟨_, hpool⟩
  | add _ hmove => cases hmove <;> exact .inl rfl

theorem drained_grows {s s' : Pipeline P} {l : PipelineLabel}
    (h : Pipeline.step l s = some s') : s.pool.drained <+: s'.pool.drained := by
  rcases pool_step h with hsame | ⟨c, hpool⟩
  · rw [hsame]
  · exact (Pool.step_moves hpool).drained_grows

theorem pool_reachable {s : Pipeline P} (h : (pipeline P).Reachable s) :
    (poolSystem (Record P.argNum) P.cacheBufQueueSize).Reachable s.pool := by
  refine h.project (π := Pipeline.pool) ?_ fun l u u' hstep => pool_step hstep
  rintro s ⟨arr, memory, rfl⟩
  exact ⟨memory, rfl⟩

end Pipeline

end LockFreeRingBuf
