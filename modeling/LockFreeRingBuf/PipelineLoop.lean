import LockFreeRingBuf.RingSpec
import LockFreeRingBuf.PipelineHandoff
import LockFreeRingBuf.PipelineHeaders

/-!
# The copy loop

`while (count > 0)` of `RingBufBG`, entered with a batch of records that
each fit an empty buffer, among steps of the producers and of `sinkBufBG`.
The rings and the pool are in any states that their own threads can bring
them to, so the current buffer may be filled to any degree.

An exchange of the buffer leaves `count` as it is. What it changes is that
the new buffer is empty, wherever it comes from: the cache holds buffers
that were reset, and an allocated one is constructed. So the next record
fits, and is copied before the buffer can be exchanged again. `swapDebt`
says whether an exchange may come before the next copy.
-/

namespace LockFreeRingBuf

open Bytes Resumption Transition

variable {P : Params} {n : CInt}

/-- The current buffer is as the constructor or `reset` leaves it. -/
def Pool.untouched {R : Type} (pool : Pool R) : Bool :=
  (pool.pBuffer.map pool.heap).all fun b => b.cur_ == 0

/-- The buffer taken in exchange is empty. -/
theorem Pool.Moves.untouched {R : Type} {CacheBufQueueSize : Nat} {pool pool' : Pool R}
    (hmove : pool.Moves CacheBufQueueSize (.writer .handOff) pool') (h : pool.Conserved) :
    pool'.untouched = true := by
  cases hmove with
  | swap hb hcache =>
      have hempty := (h.cached _ (by rw [hcache]; exact List.mem_append_right _ (.head _))).1
      simp [Pool.untouched, hempty]
  | grow hb hcache => simp [Pool.untouched, SinkBuffer.construct]

theorem Pool.Moves.handOff_frame {R : Type} {CacheBufQueueSize : Nat} {pool pool' : Pool R}
    (hmove : pool.Moves CacheBufQueueSize (.writer .handOff) pool') :
    pool'.pushes.length = pool.pushes.length + 1 ∧ pool'.drained = pool.drained
      ∧ pool'.pBuffer ≠ none := by
  cases hmove with
  | swap hb hcache | grow hb hcache => simp

/-- The step is one of `RingBufBG`'s. -/
def PipelineLabel.isBg : PipelineLabel → Bool
  | .bg => true
  | _ => false

namespace Pipeline

/-- The start of the loop over a batch of `n` records: nothing is read yet. -/
structure EntersLoop (P : Params) (n : CInt) (s : Pipeline P) : Prop where
  rings : ∀ i, (ringSystem (element P.argNum) P.ringBufSize).Reachable (s.rings i)
  pool : (poolSystem (Record P.argNum) P.cacheBufQueueSize).Reachable s.pool
  buffer : s.pool.pBuffer ≠ none
  pc : s.bg.pc = .copyTest
  n_eq : s.bg.n = n
  count : s.bg.count = n.toInt
  nonneg : 0 ≤ n.toInt
  batch : ∃ p, s.ring.consumer = .peeked n p []
    ∧ ∀ e ∈ Client.walked P.ringBufSize s.ring.shared.arr p n.toNat,
      e.entrySize.toNat < P.sinkBufferSize

/-- The pipeline from the start of the loop on. -/
def copyLoop (P : Params) (n : CInt) : System PipelineLabel (Pipeline P) where
  init := EntersLoop P n
  step := Pipeline.step

/-- Inside the loop. -/
structure Looping (n : CInt) (s : Pipeline P) : Prop where
  rings : ∀ i, (ringSystem (element P.argNum) P.ringBufSize).Reachable (s.rings i)
  pool : (poolSystem (Record P.argNum) P.cacheBufQueueSize).Reachable s.pool
  buffer : s.pool.pBuffer ≠ none
  pc : s.bg.pc.copying = true
  n_eq : s.bg.n = n
  nonneg : 0 ≤ n.toInt
  copies : s.bg.Copies P s.ring
  count : 0 ≤ s.bg.count ∧ (s.bg.pc ≠ .copyTest → 0 < s.bg.count)
  sized : ∀ j, s.ring.shared.consumed.length ≤ j → j < s.ring.shared.consumed.length + n.toNat →
    ∀ e, s.ring.shared.published[j]? = some e → e.entrySize.toNat < P.sinkBufferSize

variable {s s' : Pipeline P}

/-- The batch as the walk reads it is the batch as it was published. -/
theorem EntersLoop.looping (h : s.EntersLoop P n) : s.Looping n := by
  obtain ⟨p, hpeeked, hbatch⟩ := h.batch
  obtain ⟨hp, hn, -, hslots⟩ := peeked_reachable (h.rings _) hpeeked
  refine ⟨h.rings, h.pool, h.buffer, by rw [h.pc]; rfl, h.n_eq, h.nonneg, ?_, ?_, ?_⟩
  · refine ⟨p, [], by rw [h.n_eq]; exact hpeeked, ?_⟩
    rw [h.count, h.n_eq]
    exact Int.zero_add _
  · rw [h.count]
    exact ⟨h.nonneg, fun hpc => absurd h.pc hpc⟩
  · intro j hj hj' e he
    rw [hslots j hj (Nat.lt_of_lt_of_le hj' hn), Option.some.injEq] at he
    refine hbatch e (List.mem_map.mpr ⟨j - s.ring.shared.consumed.length, ?_, ?_⟩)
    · rw [List.mem_range]
      omega
    · rw [hp, walk_iterate, ← he, List.length_nil, Nat.add_zero, Nat.add_sub_cancel' hj]

/-- The loop as `RingBufBG` enters it in a run of the pipeline. -/
theorem EntersLoop.of_reachable (h : (pipeline P).Reachable s) (hpc : s.bg.pc = .copyTest)
    (hcount : s.bg.count = s.bg.n.toInt)
    (hsized : ∀ t i, (P.header t i).entrySize.toNat < P.sinkBufferSize) :
    s.EntersLoop P s.bg.n := by
  have hat := (coupled h).bg
  simp only [RingBufBG.At, hpc] at hat
  obtain ⟨⟨p, taken, hpeeked, htaken⟩, hnonneg⟩ := hat
  obtain rfl : taken = [] := List.length_eq_zero_iff.mp (by omega)
  refine ⟨ring_reachable h, pool_reachable h, ?_, hpc, rfl, hcount, by omega, p, hpeeked, ?_⟩
  · intro hnone
    have htake := (pBuffer_none_iff h).mp hnone
    rw [hpc] at htake
    cases htake
  · intro e he
    obtain ⟨rfl, hn, -, hslots⟩ := peeked_reachable (ring_reachable h _) hpeeked
    obtain ⟨i, hi, rfl⟩ := List.mem_map.mp he
    rw [List.mem_range] at hi
    rw [List.length_nil, Nat.add_zero, walk_iterate]
    obtain ⟨k, hk⟩ := (announces h).published _ _ (List.mem_of_getElem?
      (hslots (s.ring.shared.consumed.length + i) (Nat.le_add_right _ _)
        (Nat.lt_of_lt_of_le (Nat.add_lt_add_left hi _) hn)))
    rw [hk]
    exact hsized _ k

/-! ## Inside the loop -/

namespace Looping

theorem peeked (h : s.Looping n) :
    ∃ p taken, s.ring.consumer = .peeked n p taken
      ∧ (taken.length : Int) + s.bg.count = n.toInt := by
  obtain ⟨p, taken, hpeeked, hcount⟩ := h.copies
  rw [h.n_eq] at hpeeked hcount
  exact ⟨p, taken, hpeeked, hcount⟩

/-- The next record fits an empty buffer. -/
theorem entry_lt (h : s.Looping n) (hpos : 0 < s.bg.count) {e : UncompressedEntry P.argNum}
    (he : s.stageBufPop = some e) : e.entrySize.toNat < P.sinkBufferSize := by
  obtain ⟨p, taken, hpeeked, hcount⟩ := h.peeked
  have hentry := entry_published (h.rings _) h.copies hpos he
  rw [Config.collected, hpeeked, Consumer.taken, List.length_append] at hentry
  refine h.sized _ (Nat.le_add_right _ _) (Nat.add_lt_add_left ?_ _) e hentry
  exact RingRun.lt_toNat_of_lt_toInt (by omega)

/-- A step of another thread. -/
theorem congr (h : s.Looping n) (hbg : s'.bg = s.bg)
    (hrings : ∀ i, (ringSystem (element P.argNum) P.ringBufSize).Reachable (s'.rings i))
    (hpool : (poolSystem (Record P.argNum) P.cacheBufQueueSize).Reachable s'.pool)
    (hbuffer : s'.pool.pBuffer = s.pool.pBuffer) (hcons : s'.ring.consumer = s.ring.consumer)
    (hconsumed : s'.ring.shared.consumed = s.ring.shared.consumed)
    (hpub : s.ring.shared.published <+: s'.ring.shared.published) : s'.Looping n := by
  obtain ⟨p, taken, hpeeked, -⟩ := h.peeked
  obtain ⟨-, hn, -, -⟩ := peeked_reachable (h.rings _) hpeeked
  refine ⟨hrings, hpool, by rw [hbuffer]; exact h.buffer, by rw [hbg]; exact h.pc,
    by rw [hbg]; exact h.n_eq, h.nonneg, ?_, by rw [hbg]; exact h.count, ?_⟩
  · obtain ⟨p, taken, hpeeked, hcount⟩ := h.copies
    exact ⟨p, taken, by rw [hcons, hbg]; exact hpeeked, by rw [hbg]; exact hcount⟩
  · intro j hj hj' e he
    rw [hconsumed] at hj hj'
    refine h.sized j hj hj' e ?_
    obtain ⟨later, hlater⟩ := hpub
    rw [← hlater, List.getElem?_append_left (Nat.lt_of_lt_of_le hj' hn)] at he
    exact he

/-- `RingBufBG`'s own steps on the pool and on local variables. -/
theorem of_bg (h : s.Looping n) (hrings : s'.rings = s.rings) (hindex : s'.bg.index = s.bg.index)
    (hn : s'.bg.n = s.bg.n) (hcount : s'.bg.count = s.bg.count) (hpc : s'.bg.pc.copying = true)
    (hpos : s'.bg.pc ≠ .copyTest → 0 < s.bg.count)
    (hpool : (poolSystem (Record P.argNum) P.cacheBufQueueSize).Reachable s'.pool)
    (hbuffer : s'.pool.pBuffer ≠ none) : s'.Looping n := by
  have hring : s'.ring = s.ring := by rw [ring, hrings, hindex]
  refine ⟨by rw [hrings]; exact h.rings, hpool, hbuffer, hpc, by rw [hn]; exact h.n_eq, h.nonneg,
    ?_, by rw [hcount]; exact ⟨h.count.1, hpos⟩, by rw [hring]; exact h.sized⟩
  rw [RingBufBG.Copies, hring, hn, hcount]
  exact h.copies

end Looping

/-! ## Ranks -/

/-- One while the buffer may be exchanged before the next record is copied. -/
def swapDebt (s : Pipeline P) : Nat :=
  match s.bg.pc with
  | .copyTest => if s.pool.untouched then 0 else 1
  | .avail => if s.pool.untouched then 0 else 1
  | .swapFull => 1
  | _ => 0

/-- Exchanges to come, at most: one for each record that is left, but none for
the next one unless it is owed. -/
def swapsLeft (s : Pipeline P) : Nat := s.bg.count.toNat - (1 - s.swapDebt)

/-- Steps of `RingBufBG` to come before the test that ends the loop, at most:
three for an exchange and six for a copy. -/
def stepsLeft (s : Pipeline P) : Nat :=
  9 * s.bg.count.toNat -
    match s.bg.pc with
    | .copyTest => 3 * (1 - s.swapDebt)
    | .avail => 3 * (1 - s.swapDebt) + 1
    | .swapFull => 2
    | .fmtId => 5
    | .timestamp => 6
    | .add12 => 7
    | .append => 8
    | _ => 0

/-- From `s` to `s'` every exchange is paid for: out of those that were left,
and, but for one that was owed already, by a copy. -/
structure Proceeds (s s' : Pipeline P) : Prop where
  copied : s'.pool.drained.length + s'.bg.count.toNat
    = s.pool.drained.length + s.bg.count.toNat
  pushed : s.pool.pushes.length ≤ s'.pool.pushes.length
  swaps : s'.pool.pushes.length + s'.swapsLeft ≤ s.pool.pushes.length + s.swapsLeft
  paid : s'.pool.pushes.length + s'.swapDebt + s.pool.drained.length
    ≤ s.pool.pushes.length + s.swapDebt + s'.pool.drained.length

theorem Proceeds.refl (s : Pipeline P) : s.Proceeds s :=
  ⟨rfl, Nat.le_refl _, Nat.le_refl _, Nat.le_refl _⟩

theorem Proceeds.trans {s s' s'' : Pipeline P} (h : s.Proceeds s') (h' : s'.Proceeds s'') :
    s.Proceeds s'' := by
  have hcopied := h.copied
  have hswaps := h.swaps
  have hpaid := h.paid
  have hcopied' := h'.copied
  have hswaps' := h'.swaps
  have hpaid' := h'.paid
  exact ⟨by omega, Nat.le_trans h.pushed h'.pushed, by omega, by omega⟩

/-- A step that copies nothing and exchanges nothing. -/
theorem Proceeds.of_debt (hdrained : s'.pool.drained = s.pool.drained)
    (hpushes : s'.pool.pushes = s.pool.pushes) (hcount : s'.bg.count = s.bg.count)
    (hdebt : s'.swapDebt ≤ s.swapDebt) : s.Proceeds s' := by
  refine ⟨by rw [hdrained, hcount], Nat.le_of_eq (by rw [hpushes]), ?_, ?_⟩
  · rw [hpushes, swapsLeft, swapsLeft, hcount]
    omega
  · rw [hpushes, hdrained]
    omega

namespace Looping

/-- A record that fits every empty buffer is not too large for an untouched one. -/
theorem not_full (h : s.Looping n) (hpos : 0 < s.bg.count) {e : UncompressedEntry P.argNum}
    {b : Nat} (he : s.stageBufPop = some e) (hb : s.pool.pBuffer = some b)
    (hfull : ¬ e.entrySize < (s.pool.heap b).avail P.sinkBufferSize) :
    s.pool.untouched = false := by
  refine Bool.eq_false_iff.mpr ?_
  intro huntouched
  have hcur : (s.pool.heap b).cur_ = 0 := by simpa [Pool.untouched, hb] using huntouched
  have hfits : (s.pool.heap b).Fits P.sinkBufferSize := by
    rw [SinkBuffer.Fits, hcur]
    exact P.size_pos
  have hcur_pos := SinkBuffer.cur_pos_of_full P.size_lt hfits (h.entry_lt hpos he) hfull
  exact absurd hcur (Nat.ne_of_gt hcur_pos)

theorem pool_step (h : s.Looping n) {c : PoolCmd (Record P.argNum)} {pool : Pool (Record P.argNum)}
    (hpool : s.WriterSteps c pool) :
    (poolSystem (Record P.argNum) P.cacheBufQueueSize).Reachable pool := by
  have hstep : (poolSystem (Record P.argNum) P.cacheBufQueueSize).step (.writer c) s.pool
      = some pool := hpool
  exact h.pool.step hstep

/-- The step that completes a record reads it out of the batch. -/
theorem append_step (h : s.Looping n) (hpos : 0 < s.bg.count)
    {r : Config (UncompressedEntry P.argNum)} {pool : Pool (Record P.argNum)}
    (hr : s.ConsumerSteps .read r)
    (hpool : (poolSystem (Record P.argNum) P.cacheBufQueueSize).Reachable pool)
    (hbuffer : pool.pBuffer ≠ none) :
    ({ s with
      rings := s.setRing r, pool
      bg := { s.bg with pc := .copyTest, count := s.bg.count - 1 } } : Pipeline P).Looping n := by
  obtain ⟨p, taken, hpeeked, hcount⟩ := h.peeked
  obtain ⟨hnext, hshared, -⟩ := read_steps hpeeked (Config.consumerStep_moves _ _ hr)
  refine ⟨fun i => ?_, hpool, hbuffer, rfl, h.n_eq, h.nonneg,
    ⟨SpscQueue.walk P.ringBufSize p, taken ++ [s.ring.shared.arr p], ?_, ?_⟩, ?_, ?_⟩
  · rcases setRing_cases hr i with hsame | ⟨l, hl⟩
    · simp only [hsame]
      exact h.rings i
    · exact (h.rings i).step hl
  · simp only [ring, setRing, Function.update_self, h.n_eq]
    exact hnext
  · simp only [h.n_eq, List.length_append, List.length_singleton]
    omega
  · exact ⟨by simp only; omega, fun hne => absurd rfl hne⟩
  · simp only [ring, setRing, Function.update_self, hshared]
    exact h.sized

/-- A step of `RingBufBG` that stays in the loop. -/
theorem bg_step (h : s.Looping n) (hmove : s.BgMoves s') (hpc' : s'.bg.pc.copying = true) :
    s'.Looping n ∧ s.Proceeds s' ∧ s'.stepsLeft + 1 ≤ s.stepsLeft := by
  have hpos := h.count.2
  have hcons := Pool.Conserved.of_reachable P.cache_pos h.pool
  cases hmove with
  | copy hpc hpos =>
      refine ⟨h.of_bg rfl rfl rfl rfl hpc' (fun _ => hpos) h.pool h.buffer,
        .of_debt rfl rfl rfl ?_, ?_⟩
      · simp only [swapDebt, hpc, Nat.le_refl]
      · simp only [stepsLeft, swapDebt, hpc]
        omega
  | fits hpc he hb hlt =>
      have hpos := hpos (by simp [hpc])
      refine ⟨h.of_bg rfl rfl rfl rfl hpc' (fun _ => hpos) h.pool h.buffer,
        .of_debt rfl rfl rfl (Nat.zero_le _), ?_⟩
      simp only [stepsLeft, swapDebt, hpc]
      omega
  | full hpc he hb hge =>
      have hpos := hpos (by simp [hpc])
      have htouched := h.not_full hpos he hb hge
      refine ⟨h.of_bg rfl rfl rfl rfl hpc' (fun _ => hpos) h.pool h.buffer,
        .of_debt rfl rfl rfl ?_, ?_⟩
      · simp [swapDebt, hpc, htouched]
      · simp only [stepsLeft, swapDebt, hpc, htouched, Bool.false_eq_true, if_false]
        omega
  | fmtId hpc he hb hpool | timestamp hpc he hb hpool =>
      have hpos := hpos (by simp [hpc])
      have hreach := h.pool_step hpool
      cases Pool.step_moves hpool with
      | store hb' =>
          refine ⟨h.of_bg rfl rfl rfl rfl hpc' (fun _ => hpos) hreach h.buffer,
            .of_debt rfl rfl rfl (Nat.zero_le _), ?_⟩
          simp only [stepsLeft, hpc]
          omega
  | add12 hpc hpool =>
      have hpos := hpos (by simp [hpc])
      have hreach := h.pool_step hpool
      cases Pool.step_moves hpool with
      | add hb' =>
          refine ⟨h.of_bg rfl rfl rfl rfl hpc' (fun _ => hpos) hreach h.buffer,
            .of_debt rfl rfl rfl (Nat.zero_le _), ?_⟩
          simp only [stepsLeft, hpc]
          omega
  | append hpc he hr hpool =>
      have hpos := hpos (by simp [hpc])
      have hlooping := h.append_step hpos hr (h.pool_step hpool)
      cases Pool.step_moves hpool with
      | append hb' =>
          refine ⟨hlooping (by simp [hb']), ⟨?_, Nat.le_refl _, ?_, ?_⟩, ?_⟩
          · simp only [List.length_append, List.length_singleton]
            omega
          · simp only [swapsLeft, swapDebt, hpc]
            omega
          · simp only [swapDebt, hpc, List.length_append, List.length_singleton]
            split <;> omega
          · simp only [stepsLeft, hpc]
            omega
  | swapFull hpc hpool =>
      have hpos := hpos (by simp [hpc])
      have hreach := h.pool_step hpool
      have hempty := (Pool.step_moves hpool).untouched hcons
      obtain ⟨hpushes, hdrained, hbuffer⟩ := (Pool.step_moves hpool).handOff_frame
      refine ⟨h.of_bg rfl rfl rfl rfl hpc' (fun hne => absurd rfl hne) hreach hbuffer,
        ⟨?_, by simp only [hpushes]; omega, ?_, ?_⟩, ?_⟩
      · simp only [hdrained]
      · simp only [hpushes, swapsLeft, swapDebt, hpc, hempty, if_true]
        omega
      · simp only [hpushes, hdrained, swapDebt, hpc, hempty, if_true]
        omega
      · simp only [stepsLeft, swapDebt, hpc, hempty, if_true]
        omega
  | release => simp at hpc'
  | _ =>
      have hpc := ‹s.bg.pc = _›
      have hcopying := h.pc
      simp [hpc] at hcopying

theorem add_step (h : s.Looping n) {i : Nat} {tsc : BitVec 64} (hmove : s.AddMoves i tsc s') :
    s'.Looping n := by
  obtain ⟨-, hpool, hbg⟩ := hmove.frame
  obtain ⟨hcons, hconsumed, hpub⟩ := hmove.ring_frame s.bg.index
  refine h.congr hbg (fun k => ?_) (by rw [hpool]; exact h.pool) (by rw [hpool]) ?_ ?_ ?_
  · rcases hmove.ring_step k with hsame | ⟨l, hl⟩
    · rw [hsame]
      exact h.rings k
    · exact (h.rings k).step hl
  · rw [ring, hbg, hcons]
  · rw [ring, hbg, hconsumed]
  · rw [ring, ring, hbg]
    exact hpub

/-- `sinkBufBG` leaves the current buffer, the pushes and the copies alone. -/
theorem sink_step (h : s.Looping n) {pool : Pool (Record P.argNum)}
    (hpool : Pool.step P.cacheBufQueueSize .sink s.pool = some pool) :
    ({ s with pool } : Pipeline P).Looping n ∧ pool.untouched = s.pool.untouched
      ∧ pool.pushes = s.pool.pushes ∧ pool.drained = s.pool.drained := by
  have hmove := Pool.step_moves hpool
  have hstep : (poolSystem (Record P.argNum) P.cacheBufQueueSize).step .sink s.pool
      = some pool := hpool
  have howned := Pool.Owned.of_reachable P.cache_pos h.pool
  refine ⟨h.congr rfl h.rings (h.pool.step hstep) hmove.sink_pBuffer rfl rfl List.prefix_rfl, ?_,
    ?_, hmove.drained_eq (by simp)⟩
  · rw [Pool.untouched, Pool.untouched, hmove.sink_pBuffer]
    cases hb : s.pool.pBuffer with
    | none => rfl
    | some b =>
        rw [Option.map_some, Option.map_some,
          (hmove.sink_frame (howned.current_not_reset hb)).1]
  · cases hmove <;> rfl

/-- A step that stays in the loop; only `RingBufBG`'s own lower the rank. -/
theorem step (h : s.Looping n) {l : PipelineLabel} (hstep : Pipeline.step l s = some s')
    (hpc : s'.bg.pc.copying = true) :
    s'.Looping n ∧ s.Proceeds s' ∧ s'.stepsLeft + (if l.isBg then 1 else 0) ≤ s.stepsLeft := by
  cases step_moves hstep with
  | add _ hmove =>
      obtain ⟨-, hpool, hbg⟩ := hmove.frame
      have hdebt : s'.swapDebt = s.swapDebt := by rw [swapDebt, swapDebt, hbg, hpool]
      refine ⟨h.add_step hmove, .of_debt (by rw [hpool]) (by rw [hpool]) (by rw [hbg])
        (Nat.le_of_eq hdebt), ?_⟩
      rw [stepsLeft, stepsLeft, hdebt, hbg]
      exact Nat.le_refl _
  | bg hmove => exact h.bg_step hmove hpc
  | @sink pool hpool =>
      obtain ⟨hlooping, huntouched, hpushes, hdrained⟩ := h.sink_step hpool
      have hdebt : ({ s with pool } : Pipeline P).swapDebt = s.swapDebt := by
        simp only [swapDebt, huntouched]
      refine ⟨hlooping, .of_debt hdrained hpushes rfl (Nat.le_of_eq hdebt), ?_⟩
      simp only [stepsLeft, hdebt]
      exact Nat.le_refl _

/-- `RingBufBG` is never stuck in the loop. -/
theorem enabled (h : s.Looping n) : (Pipeline.step .bg s).isSome := by
  obtain ⟨p, taken, hpeeked, hcount⟩ := h.peeked
  obtain ⟨b, hb⟩ := Option.ne_none_iff_exists'.mp h.buffer
  have hcopying := h.pc
  have hn := h.n_eq
  have hentry : s.stageBufPop = some (s.ring.shared.arr p) := by rw [stageBufPop, hpeeked]
  have hbuffer : s.buffer? = some (s.pool.heap b) := by rw [buffer?, hb, Option.map_some]
  have hlook : s.bg.pc ≠ .copyTest →
      s.ring.consumerStep (element P.argNum) P.ringBufSize .look = some s.ring := by
    intro hpc
    have hpos := h.count.2 hpc
    have hlt : (taken.length : Int) < n.toInt := by omega
    simp only [Config.consumerStep, hpeeked, hlt, if_true]
  cases hpc : s.bg.pc with
  | copyTest =>
      by_cases hpos : 0 < s.bg.count
      · simp [Pipeline.step, bgStep, hpc, hpos]
      · have hnonneg := h.count.1
        have hread : n.toNat ≤ taken.length := by
          rw [← toInt_toNat_of_nonneg h.nonneg]
          omega
        simp [Pipeline.step, bgStep, hpc, hpos, consume, Config.consumerStep, Consumer.starts,
          hpeeked, hn, hread]
  | avail =>
      have hlook := hlook (by simp [hpc])
      simp [Pipeline.step, bgStep, hpc, consume, hentry, hbuffer, hlook]
  | fmtId | timestamp =>
      have hlook := hlook (by simp [hpc])
      simp [Pipeline.step, bgStep, hpc, consume, hentry, hbuffer, hlook, fill, Pool.step,
        Pool.modify, hb]
  | add12 => simp [Pipeline.step, bgStep, hpc, fill, Pool.step, Pool.modify, hb]
  | append =>
      have hpos := h.count.2 (by simp [hpc])
      have hlt : (taken.length : Int) < n.toInt := by omega
      simp [Pipeline.step, bgStep, hpc, consume, hentry, Config.consumerStep, hpeeked, hlt, fill,
        Pool.step, Pool.append, hb]
  | swapFull => simp [Pipeline.step, bgStep, hpc, fill, Pool.step, Pool.handOff, hb]
  | _ => simp [hpc] at hcopying

/-- An exchange is a push. -/
theorem swap_pushes (hstep : Pipeline.step .bg s = some s') (hpc : s.bg.pc = .swapFull) :
    s'.pool.pushes.length = s.pool.pushes.length + 1 := by
  cases bgStep_moves hstep with
  | swapFull _ hpool => exact (Pool.step_moves hpool).handOff_frame.1
  | _ =>
      have hpc' := ‹s.bg.pc = _›
      rw [hpc] at hpc'
      cases hpc'

/-- The only step out of the loop is the test that `count` fails. -/
theorem leaves (h : s.Looping n) {l : PipelineLabel} (hstep : Pipeline.step l s = some s')
    (hpc : ¬ s'.bg.pc.copying = true) : s.bg.count = 0 ∧ s'.pool = s.pool := by
  have hcopying := h.pc
  cases step_moves hstep with
  | add _ hmove =>
      obtain ⟨-, -, hbg⟩ := hmove.frame
      rw [hbg] at hpc
      exact absurd hcopying hpc
  | sink => exact absurd hcopying hpc
  | bg hmove =>
      cases hmove with
      | release _ hpos _ =>
          have hnonneg := h.count.1
          exact ⟨by omega, rfl⟩
      | copy | fits | full | fmtId | timestamp | add12 | append | swapFull => exact absurd rfl hpc
      | _ =>
          have hpc := ‹s.bg.pc = _›
          simp [hpc] at hcopying

end Looping

end Pipeline

/-! ## Runs of the loop -/

namespace CopyLoop

open Pipeline

variable (ρ : Run (copyLoop P n))

/-- The loop has not been left by time `t`. -/
def InLoop (t : Nat) : Prop := ∀ u, u ≤ t → (ρ.state u).bg.pc.copying = true

/-- The step at time `t` leaves the loop. -/
def LeavesAt (t : Nat) : Prop := InLoop ρ t ∧ ¬ (ρ.state (t + 1)).bg.pc.copying = true

/-- The step at time `t` exchanges the buffer. -/
def SwapsAt (t : Nat) : Prop := ρ.label t = some .bg ∧ (ρ.state t).bg.pc = .swapFull

/-- Records copied before time `t`. -/
def copied (t : Nat) : Nat := (ρ.state t).pool.drained.length - (ρ.state 0).pool.drained.length

/-- Buffers pushed onto `sinkBufQueue` before time `t`. -/
def pushed (t : Nat) : Nat := (ρ.state t).pool.pushes.length - (ρ.state 0).pool.pushes.length

variable {ρ} {a b t : Nat}

theorem InLoop.mono (h : InLoop ρ b) (hab : a ≤ b) : InLoop ρ a := fun u hu =>
  h u (Nat.le_trans hu hab)

theorem InLoop.looping (h : InLoop ρ t) : (ρ.state t).Looping n := by
  induction t with
  | zero => exact ρ.start.looping
  | succ t ih =>
      have hbefore := ih (h.mono (Nat.le_succ t))
      rcases ρ.next t with ⟨-, heq⟩ | ⟨l, -, hl⟩
      · rw [heq]
        exact hbefore
      · exact (hbefore.step hl (h (t + 1) (Nat.le_refl _))).1

theorem InLoop.proceeds (h : InLoop ρ b) (hab : a ≤ b) : (ρ.state a).Proceeds (ρ.state b) :=
  ρ.between (I := fun s => s.Looping n) .refl (fun _ _ _ => .trans)
    (fun _ _ _ hs hs' hl => (hs.step hl hs'.pc).2.1) hab
    fun _ _ hu => (h.mono hu).looping

theorem InLoop.turns_le (h : InLoop ρ t) : ρ.turns PipelineLabel.isBg t ≤ 9 * n.toInt.toNat := by
  have hrank := ρ.turns_add_rank_le (I := fun s => s.Looping n) stepsLeft
    (fun _ _ _ hs hs' hl => (hs.step hl hs'.pc).2.2) fun _ hu => (h.mono hu).looping
  have hstart : (ρ.state 0).stepsLeft ≤ 9 * n.toInt.toNat := by
    rw [stepsLeft, ρ.start.count]
    exact Nat.sub_le _ _
  omega

theorem InLoop.copied_eq (h : InLoop ρ t) :
    copied ρ t + (ρ.state t).bg.count.toNat = n.toInt.toNat := by
  have hcopied := (h.proceeds (Nat.zero_le t)).copied
  have hcount := h.looping.copies.count_le
  rw [h.looping.n_eq] at hcount
  rw [ρ.start.count] at hcopied
  rw [copied]
  omega

theorem InLoop.pushed_le (h : InLoop ρ t) : pushed ρ t ≤ n.toInt.toNat := by
  have hproceeds := h.proceeds (Nat.zero_le t)
  have hpushed := hproceeds.pushed
  have hswaps := hproceeds.swaps
  have hstart : (ρ.state 0).swapsLeft ≤ n.toInt.toNat := by
    rw [swapsLeft, ρ.start.count]
    exact Nat.sub_le _ _
  rw [pushed]
  omega

theorem SwapsAt.pushes (h : SwapsAt ρ t) :
    (ρ.state (t + 1)).pool.pushes.length = (ρ.state t).pool.pushes.length + 1 := by
  obtain ⟨hlabel, hpc⟩ := h
  rcases ρ.next t with ⟨hnone, -⟩ | ⟨l, hl, hstep⟩
  · rw [hlabel] at hnone
    cases hnone
  · obtain rfl := Option.some.inj (hlabel.symm.trans hl)
    exact Looping.swap_pushes hstep hpc

/-- Between two exchanges a record is copied: the first leaves nothing owed. -/
theorem InLoop.copied_lt (h : InLoop ρ b) (hab : a < b) (ha : SwapsAt ρ a) (hb : SwapsAt ρ b) :
    copied ρ a < copied ρ b := by
  have hin := h.mono (Nat.le_of_lt hab)
  have hfirst := ha.pushes
  have hlater : (ρ.state (a + 1)).pool.pushes.length ≤ (ρ.state b).pool.pushes.length :=
    (h.proceeds hab).pushed
  have hpaid := (h.proceeds (Nat.le_of_lt hab)).paid
  simp only [swapDebt, ha.2, hb.2] at hpaid
  have hcopied := (hin.proceeds (Nat.zero_le a)).copied
  have hcount := hin.looping.copies.count_le
  rw [hin.looping.n_eq] at hcount
  rw [ρ.start.count] at hcopied
  rw [copied, copied]
  omega

/-- The step out of the loop is the test that `count` fails, with nothing left
to copy. -/
theorem LeavesAt.done (h : LeavesAt ρ t) :
    (ρ.state t).bg.count = 0 ∧ (ρ.state (t + 1)).pool = (ρ.state t).pool := by
  obtain ⟨hin, hout⟩ := h
  rcases ρ.next t with ⟨-, heq⟩ | ⟨l, -, hl⟩
  · rw [heq] at hout
    exact absurd (hin t (Nat.le_refl t)) hout
  · exact hin.looping.leaves hl hout

/-- For every batch whose records each fit an empty buffer, however full the
current buffer is, and whatever the other threads do in between: `RingBufBG`
can always step in the loop, and leaves it after at most `9 n` steps of its
own and the failing test; by then it has copied exactly `n` records and pushed
at most `n` buffers, and between two exchanges it has copied a record. -/
theorem copy_loop_terminates (ρ : Run (copyLoop P n)) :
    (∀ t, InLoop ρ t → (Pipeline.step .bg (ρ.state t)).isSome
        ∧ ρ.turns PipelineLabel.isBg t ≤ 9 * n.toInt.toNat ∧ pushed ρ t ≤ n.toInt.toNat)
      ∧ ((∀ k, ∃ t, k ≤ ρ.turns PipelineLabel.isBg t) → ∃ t, LeavesAt ρ t)
      ∧ (∀ t, LeavesAt ρ t →
        copied ρ (t + 1) = n.toInt.toNat ∧ pushed ρ (t + 1) ≤ n.toInt.toNat)
      ∧ ∀ a b, a < b → InLoop ρ b → SwapsAt ρ a → SwapsAt ρ b → copied ρ a < copied ρ b := by
  refine ⟨fun t h => ⟨h.looping.enabled, h.turns_le, h.pushed_le⟩, fun hfair => ?_,
    fun t h => ?_, fun a b hab h ha hb => h.copied_lt hab ha hb⟩
  · obtain ⟨t, ht⟩ := hfair (9 * n.toInt.toNat + 1)
    have hout : ∃ u, ¬ (ρ.state u).bg.pc.copying = true := by
      by_contra hnever
      have hin : InLoop ρ t := fun u _ => Classical.not_not.mp fun hu => hnever ⟨u, hu⟩
      have hle := hin.turns_le
      omega
    obtain ⟨u, hu⟩ := hout
    exact ρ.exists_leaving (I := fun s => s.bg.pc.copying = true) ρ.start.looping.pc hu
  · obtain ⟨hcount, hpool⟩ := h.done
    have hcopied := h.1.copied_eq
    rw [hcount] at hcopied
    rw [copied, pushed, hpool]
    exact ⟨hcopied, h.1.pushed_le⟩

/-- What a loop that is entered in a run of the pipeline has copied stands in the
log: behind what was there, the bytes of `n` more records. -/
theorem copied_bytes (hstart : (pipeline P).Reachable (ρ.state 0)) (h : LeavesAt ρ t) :
    ∃ records : List (Record P.argNum), records.length = n.toInt.toNat
      ∧ (ρ.state (t + 1)).pool.drained = (ρ.state 0).pool.drained ++ records
      ∧ (ρ.state (t + 1)).logBytes = (ρ.state 0).logBytes ++ encodeAll records := by
  obtain ⟨hreach, records, hdrained⟩ := ρ.between (I := fun _ => True)
    (r := fun s s' => ((pipeline P).Reachable s → (pipeline P).Reachable s')
      ∧ s.pool.drained <+: s'.pool.drained)
    (fun _ => ⟨id, List.prefix_rfl⟩)
    (fun _ _ _ h h' => ⟨fun hs => h'.1 (h.1 hs), h.2.trans h'.2⟩)
    (fun _ _ _ _ _ hstep => ⟨fun hs => hs.step hstep, drained_grows hstep⟩)
    (Nat.zero_le (t + 1)) fun _ _ _ => trivial
  obtain ⟨hcount, hpool⟩ := h.done
  have hcopied := h.1.copied_eq
  rw [hcount, copied, ← hpool, ← hdrained, List.length_append] at hcopied
  have hbefore : (ρ.state 0).bg.pc ≠ .append := by simp [ρ.start.pc]
  have hafter : (ρ.state (t + 1)).bg.pc ≠ .append := by
    intro hpc
    exact h.2 (by rw [hpc]; rfl)
  refine ⟨records, by omega, hdrained.symm, ?_⟩
  rw [logBytes_eq (hreach hstart) hafter, logBytes_eq hstart hbefore, ← hdrained,
    encodeAll_append]

/-- Two records, of which each fills a buffer: one exchange in between. -/
theorem copy_loop_terminates_tiny :
    ∃ ρ : Run (copyLoop .tiny 2#32), (ρ.state 8).bg.pc = .swapFull ∧ LeavesAt ρ 15
      ∧ copied ρ 16 = 2 ∧ pushed ρ 16 ≤ 2 := by
  let s := Pipeline.tinyAfter [(.add 0 5#64, 27), (.bg, 8)]
  let states := (copyLoop .tiny 2#32).replay (List.replicate 16 .bg) s
  have hreach : (pipeline .tiny).Reachable s := Pipeline.tinyAfter_reachable _
  have hn : s.bg.n = 2#32 := by decide +kernel
  have hstart : s.EntersLoop .tiny 2#32 := by
    rw [← hn]
    exact .of_reachable hreach (by decide +kernel) (by decide +kernel)
      fun _ _ => Nat.lt_succ_self 12
  have hswaps : (states 8).bg.pc = .swapFull := by decide +kernel
  have hin : ∀ u, u ≤ 15 → (states u).bg.pc.copying = true := by decide +kernel
  have hout : ¬ (states 16).bg.pc.copying = true := by decide +kernel
  obtain ⟨ρ, hρ⟩ : ∃ ρ : Run (copyLoop .tiny 2#32), states = ρ.state :=
    ⟨.replay _ (List.replicate 16 .bg) hstart, rfl⟩
  rw [hρ] at hswaps hin hout
  obtain ⟨-, -, hdone, -⟩ := copy_loop_terminates ρ
  exact ⟨ρ, hswaps, ⟨hin, hout⟩, hdone 15 ⟨hin, hout⟩⟩

end CopyLoop

end LockFreeRingBuf
