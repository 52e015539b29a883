import LockFreeRingBuf.PipelineHandoff
import LockFreeRingBuf.PipelineHeaders

/-!
# What is pushed onto `sinkBufQueue`, and when

The buffers pushed so far cut the records copied out into batches, in
order, and the records of the current buffer are what is left. No batch is
empty: `avail()` of an empty buffer passes the test of every record that
fits one, and `nItrWithNonEmptyBuf` counts only while the buffer is not
empty. And no record waits for its batch to be pushed through more than
2000 draining iterations: the count starts over when a buffer is exchanged,
which is when the records in it are none, also in the midst of an iteration.
-/

namespace LockFreeRingBuf

open Bytes Resumption Transition

variable {P : Params}

/-- The records in the buffer that `RingBufBG` holds. -/
def Pool.current {R : Type} (pool : Pool R) : List R := pool.pBuffer.toList.flatMap pool.records

theorem Pool.current_eq {R : Type} {pool : Pool R} {b : Nat} (hb : pool.pBuffer = some b) :
    pool.current = pool.records b := by
  rw [Pool.current, hb, Option.toList_some, List.flatMap_singleton]

/-! ## One step of the pool -/

section

variable {R : Type} {CacheBufQueueSize : Nat} {pool pool' : Pool R} {l : PoolLabel R}

/-- Only a copy and an exchange change the current buffer's records. -/
theorem Pool.Moves.current_frame (hmove : pool.Moves CacheBufQueueSize l pool')
    (howned : pool.Owned CacheBufQueueSize) (hcons : pool.Conserved)
    (hoff : l ≠ .writer .handOff) (happend : ∀ bs r, l ≠ .writer (.append bs r)) :
    pool'.pushes = pool.pushes ∧ pool'.drained = pool.drained ∧ pool'.current = pool.current := by
  cases hmove with
  | take hnone hcache =>
      have hempty := (hcons.cached _ (by rw [hcache]; exact List.mem_append_right _ (.head _))).2
      refine ⟨rfl, rfl, ?_⟩
      simp [Pool.current, hnone, hempty]
  | append => exact absurd rfl (happend _ _)
  | swap | grow => exact absurd rfl hoff
  | @reset b hsink =>
      have hother : pool.pBuffer ≠ some b := fun hb => howned.current_not_reset hb hsink
      exact ⟨rfl, rfl, flatMap_pBuffer_update hother⟩
  | _ => exact ⟨rfl, rfl, rfl⟩

theorem Pool.Moves.append_current {bs : List Byte} {r : R}
    (hmove : pool.Moves CacheBufQueueSize (.writer (.append bs r)) pool') :
    pool'.pushes = pool.pushes ∧ pool'.drained = pool.drained ++ [r]
      ∧ pool'.current = pool.current ++ [r] := by
  cases hmove with
  | append hb =>
      refine ⟨rfl, rfl, ?_⟩
      simp [Pool.current, hb]

theorem Pool.Moves.handOff_current
    (hmove : pool.Moves CacheBufQueueSize (.writer .handOff) pool') (hcons : pool.Conserved) :
    ∃ b, pool.pBuffer = some b ∧ pool'.pushes = pool.pushes ++ [pool.entry b]
      ∧ pool'.drained = pool.drained ∧ pool'.current = [] := by
  have htaken := fun x hx => hmove.taken_empty hcons (.inr rfl) (x := x) hx
  cases hmove with
  | swap hb hcache | grow hb hcache =>
      refine ⟨_, hb, rfl, rfl, ?_⟩
      rw [Pool.current_eq rfl]
      exact htaken _ rfl

end

namespace Pipeline

variable {s s' : Pipeline P}

theorem sink_current (h : (pipeline P).Reachable s) {pool : Pool (Record P.argNum)}
    (hpool : Pool.step P.cacheBufQueueSize .sink s.pool = some pool) :
    pool.pushes = s.pool.pushes ∧ pool.drained = s.pool.drained
      ∧ pool.current = s.pool.current :=
  (Pool.step_moves hpool).current_frame (owned h) (conserved h) (by simp) (by simp)

/-! ## The batches -/

/-- The buffers pushed so far hold these batches of records. -/
structure Batches (s : Pipeline P) (batches : List (List (Record P.argNum))) : Prop where
  pushes : s.pool.pushes.map Prod.snd = batches.map encodeAll
  drained : batches.flatten ++ s.pool.current = s.pool.drained

/-- `RingBufBG` is at one of the two places where it exchanges the buffer. -/
def Exchanges (s : Pipeline P) : Prop := s.bg.pc = .swapFull ∨ s.bg.pc = .flush

namespace Batches

variable {batches : List (List (Record P.argNum))}

theorem congr (h : s.Batches batches) (hpool : s'.pool.pushes = s.pool.pushes
    ∧ s'.pool.drained = s.pool.drained ∧ s'.pool.current = s.pool.current) :
    s'.Batches batches := by
  obtain ⟨hpushes, hdrained, hcurrent⟩ := hpool
  exact ⟨by rw [hpushes]; exact h.pushes, by rw [hdrained, hcurrent]; exact h.drained⟩

/-- At an exchange the records of the current buffer become a batch. -/
theorem exchange (h : s.Batches batches) (hreach : (pipeline P).Reachable s)
    (hpc : s.Exchanges) (hpool : s.WriterSteps .handOff s'.pool) :
    s'.Batches (batches ++ [s.pool.current]) := by
  obtain ⟨b, hb, hpushes, hdrained, hcurrent⟩ :=
    (Pool.step_moves hpool).handOff_current (conserved hreach)
  have hwhole := (encodes hreach).current_whole hb (by rcases hpc with hpc | hpc <;> simp [hpc])
  refine ⟨?_, ?_⟩
  · rw [hpushes, List.map_append, List.map_append, h.pushes, Pool.current_eq hb]
    simp only [List.map_cons, List.map_nil, Pool.entry]
    rw [hwhole.contents_eq P.size_lt ((roomy hreach).fits b)]
  · rw [hcurrent, hdrained, ← h.drained, List.flatten_append, List.flatten_singleton,
      List.append_nil]

theorem bg_step (h : s.Batches batches) (hreach : (pipeline P).Reachable s)
    (hmove : s.BgMoves s') :
    s'.Batches batches ∨ s.Exchanges ∧ s'.Batches (batches ++ [s.pool.current]) := by
  have howned := owned hreach
  have hcons := conserved hreach
  cases hmove with
  | swapFull hpc hpool => exact .inr ⟨.inl hpc, h.exchange hreach (.inl hpc) hpool⟩
  | flush hpc hpool => exact .inr ⟨.inr hpc, h.exchange hreach (.inr hpc) hpool⟩
  | append _ _ _ hpool =>
      obtain ⟨hpushes, hdrained, hcurrent⟩ := (Pool.step_moves hpool).append_current
      refine .inl ⟨by rw [← h.pushes, ← hpushes], ?_⟩
      simp only [hcurrent, hdrained]
      rw [← h.drained, List.append_assoc]
  | take _ hpool | fmtId _ _ _ hpool | timestamp _ _ _ hpool | add12 _ hpool
  | exitFlag _ hpool =>
      exact .inl (h.congr
        ((Pool.step_moves hpool).current_frame howned hcons (by simp) (by simp)))
  | _ => exact .inl (h.congr ⟨rfl, rfl, rfl⟩)

end Batches

/-- What holds of the current buffer's records at every exchange holds of
every batch. -/
theorem exists_batches {q : List (Record P.argNum) → Prop}
    (hq : ∀ s : Pipeline P, (pipeline P).Reachable s → s.Exchanges → q s.pool.current)
    (h : (pipeline P).Reachable s) :
    ∃ batches, s.Batches batches ∧ ∀ records ∈ batches, q records := by
  refine h.invariant
    (I := fun s => ∃ batches, s.Batches batches ∧ ∀ records ∈ batches, q records) ?_ ?_
  · rintro s ⟨arr, memory, rfl⟩
    exact ⟨[], ⟨rfl, rfl⟩, fun _ hrecords => by cases hrecords⟩
  · rintro l u u' hreach ⟨batches, hu, hall⟩ hstep
    cases step_moves hstep with
    | add _ hmove =>
        obtain ⟨-, hpool, -⟩ := hmove.frame
        exact ⟨batches, hu.congr (by rw [hpool]; exact ⟨rfl, rfl, rfl⟩), hall⟩
    | sink hpool => exact ⟨batches, hu.congr (sink_current hreach hpool), hall⟩
    | bg hmove =>
        rcases hu.bg_step hreach hmove with hsame | ⟨hpc, hnext⟩
        · exact ⟨batches, hsame, hall⟩
        · refine ⟨_, hnext, fun records hrecords => ?_⟩
          rcases List.mem_append.mp hrecords with hrecords | hrecords
          · exact hall records hrecords
          · obtain rfl := List.mem_singleton.mp hrecords
            exact hq u hreach hpc

/-! ## Ages -/

/-- The record was copied in one of the last `nItrWithNonEmptyBuf` draining
iterations to end, or in the one in progress. -/
structure Recent (s : Pipeline P) (r : Record P.argNum) : Prop where
  le : r.iter ≤ s.drainIters
  age_le : s.drainIters ≤ r.iter + s.bg.nItrWithNonEmptyBuf
  drains : r.iter = s.drainIters → s.bg.uncounted ≠ 0

structure Ages (s : Pipeline P) : Prop where
  limit : s.bg.nItrWithNonEmptyBuf ≤ 2000 ∨ s.bg.pc = .flush
  flushes : s.bg.pc = .flush → s.bg.nItrWithNonEmptyBuf ≠ 0
  recent : ∀ r ∈ s.pool.current, s.Recent r

namespace Ages

/-- Nothing is copied or exchanged, and no iteration ends. -/
theorem congr (h : s.Ages) (hpc : s.bg.pc ≠ .flush) (hpc' : s'.bg.pc ≠ .flush)
    (hcurrent : s'.pool.current = s.pool.current) (hiters : s'.drainIters = s.drainIters)
    (hn : s'.bg.nItrWithNonEmptyBuf = s.bg.nItrWithNonEmptyBuf)
    (hu : s'.bg.uncounted = s.bg.uncounted) : s'.Ages := by
  refine ⟨.inl ?_, fun hflush => absurd hflush hpc', fun r hr => ?_⟩
  · rw [hn]
    exact h.limit.resolve_right hpc
  · rw [hcurrent] at hr
    have hrecent := h.recent r hr
    exact ⟨by rw [hiters]; exact hrecent.le, by rw [hiters, hn]; exact hrecent.age_le,
      by rw [hiters, hu]; exact hrecent.drains⟩

/-- The buffer taken in exchange has no records, and its count is zero. -/
theorem of_exchange (hcons : s.pool.Conserved) (hpool : s.WriterSteps .handOff s'.pool)
    (hpc' : s'.bg.pc ≠ .flush) (hn : s'.bg.nItrWithNonEmptyBuf = 0) : s'.Ages := by
  obtain ⟨b, -, -, -, hcurrent⟩ := (Pool.step_moves hpool).handOff_current hcons
  refine ⟨.inl ?_, fun hflush => absurd hflush hpc', fun r hr => ?_⟩
  · rw [hn]
    exact Nat.zero_le _
  · rw [hcurrent] at hr
    cases hr

/-- The end of an iteration that drained something: every record is one
iteration older, and so is the count. -/
theorem of_drained (h : s.Ages) (hcurrent : s'.pool.current = s.pool.current)
    (hiters : s'.drainIters = s.drainIters + 1)
    (hn : s'.bg.nItrWithNonEmptyBuf = s.bg.nItrWithNonEmptyBuf + 1)
    (hlimit : s'.bg.nItrWithNonEmptyBuf ≤ 2000 ∨ s'.bg.pc = .flush) : s'.Ages := by
  refine ⟨hlimit, fun _ => by rw [hn]; exact Nat.succ_ne_zero _, fun r hr => ?_⟩
  rw [hcurrent] at hr
  have hle := (h.recent r hr).le
  have hage := (h.recent r hr).age_le
  refine ⟨by omega, by omega, fun heq => ?_⟩
  omega

theorem bg_step (h : s.Ages) (hreach : (pipeline P).Reachable s) (hmove : s.BgMoves s') :
    s'.Ages := by
  have howned := owned hreach
  have hcons := conserved hreach
  have hnonneg := uncounted_nonneg hreach
  have hgrows := uncounted_step hreach hmove
  have hsame := uncounted_eq hreach hmove
  cases hmove with
  | swapFull hpc hpool | flush hpc hpool => exact of_exchange hcons hpool (by simp) rfl
  | append hpc _ _ hpool =>
      obtain ⟨-, -, hcurrent⟩ := (Pool.step_moves hpool).append_current
      have hnext := hgrows (by simp [hpc])
      rw [if_pos hpc] at hnext
      refine ⟨.inl (h.limit.resolve_right (by simp [hpc])), fun hflush => absurd hflush (by simp),
        fun r hr => ?_⟩
      simp only [hcurrent] at hr
      rcases List.mem_append.mp hr with hr | hr
      · exact ⟨(h.recent r hr).le, (h.recent r hr).age_le, fun _ => by omega⟩
      · obtain rfl := List.mem_singleton.mp hr
        exact ⟨Nat.le_refl _, Nat.le_add_right _ _, fun _ => by omega⟩
  | idleIter hpc hzero =>
      refine h.congr (by simp [hpc]) (by simp) rfl rfl rfl ?_
      simpa only [RingBufBG.uncounted, hpc] using hzero.symm
  | drainIter _ _ hlimit => exact h.of_drained rfl rfl rfl (.inl (Nat.not_lt.mp hlimit))
  | flushIter => exact h.of_drained rfl rfl rfl (.inr rfl)
  | take hpc hpool | fmtId hpc _ _ hpool | timestamp hpc _ _ hpool | add12 hpc hpool
  | exitFlag hpc hpool =>
      exact h.congr (by simp [hpc]) (by simp)
        ((Pool.step_moves hpool).current_frame howned hcons (by simp) (by simp)).2.2 rfl rfl
        (hsame (by simp [hpc]) (by simp [hpc]))
  | _ =>
      have hpc := ‹s.bg.pc = _›
      exact h.congr (by simp [hpc]) (by simp [hpc]) rfl rfl rfl
        (hsame (by simp [hpc]) (by simp [hpc]))

/-- A step of another thread. -/
theorem of_bg_eq (h : s.Ages) (hbg : s'.bg = s.bg) (hiters : s'.drainIters = s.drainIters)
    (hcurrent : s'.pool.current = s.pool.current) : s'.Ages := by
  refine ⟨by rw [hbg]; exact h.limit, by rw [hbg]; exact h.flushes, fun r hr => ?_⟩
  rw [hcurrent] at hr
  have hrecent := h.recent r hr
  exact ⟨by rw [hiters]; exact hrecent.le, by rw [hiters, hbg]; exact hrecent.age_le,
    by rw [hiters, hbg]; exact hrecent.drains⟩

end Ages

theorem ages (h : (pipeline P).Reachable s) : s.Ages := by
  refine h.invariant (I := Ages) ?_ ?_
  · rintro s ⟨arr, memory, rfl⟩
    refine ⟨.inl (Nat.zero_le _), fun hpc => ?_, fun r hr => ?_⟩
    · cases hpc
    · cases hr
  · intro l u u' hreach hu hstep
    cases step_moves hstep with
    | add _ hmove =>
        have hiters : u'.drainIters = u.drainIters := by cases hmove <;> rfl
        obtain ⟨-, hpool, hbg⟩ := hmove.frame
        exact hu.of_bg_eq hbg hiters (by rw [hpool])
    | bg hmove => exact hu.bg_step hreach hmove
    | sink hpool => exact hu.of_bg_eq rfl rfl (sink_current hreach hpool).2.2

/-! ## No batch is empty -/

theorem currentEmpty_iff : s.CurrentEmpty ↔ s.pool.current = [] := by
  rw [CurrentEmpty, Pool.current]
  cases s.pool.pBuffer with
  | none => simp
  | some b => simp

/-- A record that fits an empty buffer finds the current one full only when
there is a record in it. -/
theorem full_nonempty (hsized : ∀ t i, (P.header t i).entrySize.toNat < P.sinkBufferSize)
    (h : (pipeline P).Reachable s) (hpc : s.bg.pc = .swapFull) : s.pool.current ≠ [] := by
  refine h.invariant (I := fun s => s.bg.pc = .swapFull → s.pool.current ≠ []) ?_ ?_ hpc
  · rintro s ⟨arr, memory, rfl⟩ hpc
    cases hpc
  · intro l u u' hreach hu hstep
    cases step_moves hstep with
    | add _ hmove =>
        obtain ⟨-, hpool, hbg⟩ := hmove.frame
        rw [hpool, hbg]
        exact hu
    | sink hpool =>
        obtain ⟨-, -, hcurrent⟩ := sink_current hreach hpool
        intro hpc
        rw [hcurrent]
        exact hu hpc
    | bg hmove =>
        cases hmove with
        | full hpc he hb hfull =>
            intro _ hempty
            have hat := (coupled hreach).bg
            simp only [RingBufBG.At, hpc] at hat
            obtain ⟨k, hk⟩ := (announces hreach).published _ _
              (List.mem_of_getElem? (entry_published (ring_reachable hreach _) hat.1 hat.2 he))
            have hlt := hsized u.bg.index k
            rw [← hk] at hlt
            have hpos := SinkBuffer.cur_pos_of_full P.size_lt ((roomy hreach).fits _) hlt hfull
            have hwhole : readAt _ 0 _ = _ := (encodes hreach).current_whole hb (by simp [hpc])
            rw [← Pool.current_eq hb, hempty] at hwhole
            have hlength := congrArg List.length hwhole
            rw [readAt_length] at hlength
            exact absurd hlength (Nat.ne_of_gt hpos)
        | peeking hpc | consuming hpc => intro hpc'; simp [hpc] at hpc'
        | _ => intro hpc'; cases hpc'

/-- What `RingBufBG` hands off is not empty. -/
theorem exchange_nonempty (hsized : ∀ t i, (P.header t i).entrySize.toNat < P.sinkBufferSize)
    (h : (pipeline P).Reachable s) (hpc : s.Exchanges) : s.pool.current ≠ [] := by
  rcases hpc with hpc | hpc
  · exact full_nonempty hsized h hpc
  · intro hempty
    refine (ages h).flushes hpc (((handsOff h).counted ?_).mpr (currentEmpty_iff.mpr hempty))
    simp only [RingBufBG.uncounted, hpc]

/-- When no batch is empty, no queued buffer is. -/
theorem queued_nonempty (h : (pipeline P).Reachable s) {batches : List (List (Record P.argNum))}
    (hbatches : s.Batches batches) (hne : ∀ records ∈ batches, records ≠ []) {b : Nat}
    (hb : b ∈ s.pool.sinkBufQueue) : s.pool.records b ≠ [] := by
  have hlogged : _ = _ := logged h
  have hpushed : s.pool.entry b ∈ s.pool.pushes := by
    rw [← hlogged]
    exact List.mem_append_right _ (List.mem_map_of_mem hb)
  have hother : s.pool.pBuffer ≠ some b := fun hcurrent =>
    ((owned h).pBuffer_unique hcurrent).1 hb
  have hcontents := ((encodes h).whole b hother).contents_eq P.size_lt ((roomy h).fits b)
  have hbytes := List.mem_map_of_mem (f := Prod.snd) hpushed
  rw [hbatches.pushes, Pool.entry, hcontents] at hbytes
  obtain ⟨records, hrecords, heq⟩ := List.mem_map.mp hbytes
  intro hempty
  have hlength := congrArg List.length heq
  rw [hempty, encodeAll_length, encodeAll_length, List.length_nil, Nat.mul_zero] at hlength
  have hpos := List.length_pos_iff.mpr (hne records hrecords)
  exact absurd hlength (Nat.ne_of_gt (Nat.mul_pos (by omega) hpos))

end Pipeline

/-- When every record fits an empty buffer: every buffer pushed onto
`sinkBufQueue` holds at least one record. At the head of the outer loop
`nItrWithNonEmptyBuf` is at most 2000, and every record in the current buffer
was copied in one of that many last iterations that drained something. So a
record sees the end of at most 2000 of them from the current buffer, and of
one more only when the buffer is being handed off for it. -/
theorem hand_off_policy (hsized : ∀ t i, (P.header t i).entrySize.toNat < P.sinkBufferSize)
    {s : Pipeline P} (h : (pipeline P).Reachable s) :
    (∃ batches, s.Batches batches ∧ ∀ records ∈ batches, records ≠ [])
      ∧ (∀ b ∈ s.pool.sinkBufQueue, s.pool.records b ≠ [])
      ∧ (s.bg.pc = .outer → s.bg.nItrWithNonEmptyBuf ≤ 2000
          ∧ ∀ r ∈ s.pool.current, r.iter < s.drainIters
            ∧ s.drainIters ≤ r.iter + s.bg.nItrWithNonEmptyBuf)
      ∧ (s.bg.pc ≠ .flush → ∀ r ∈ s.pool.current, s.drainIters ≤ r.iter + 2000) := by
  have hages := Pipeline.ages h
  obtain ⟨batches, hbatches, hne⟩ := Pipeline.exists_batches (q := fun records => records ≠ [])
    (fun _ hreach hpc => Pipeline.exchange_nonempty hsized hreach hpc) h
  refine ⟨⟨batches, hbatches, hne⟩, fun b hb => Pipeline.queued_nonempty h hbatches hne hb,
    fun hpc => ⟨hages.limit.resolve_right (by simp [hpc]), fun r hr => ?_⟩, fun hpc r hr => ?_⟩
  · have hrecent := hages.recent r hr
    have hended : r.iter ≠ s.drainIters := by
      intro heq
      refine hrecent.drains heq ?_
      simp only [RingBufBG.uncounted, hpc]
    exact ⟨Nat.lt_of_le_of_ne hrecent.le hended, hrecent.age_le⟩
  · have hlimit := hages.limit.resolve_right hpc
    have hage := (hages.recent r hr).age_le
    omega

/-- The first buffer is pushed, and the second holds the other record. -/
theorem hand_off_policy_tiny :
    let s := Pipeline.tinyAfter [(.add 0 5#64, 27), (.bg, 30)]
    s.bg.pc = .outer ∧ s.pool.sinkBufQueue = [0] ∧ s.pool.records 0 ≠ []
      ∧ s.pool.current.length = 1 ∧ s.bg.nItrWithNonEmptyBuf ≤ 2000
      ∧ ∀ r ∈ s.pool.current, r.iter < s.drainIters := by
  intro s
  have hreach : (pipeline .tiny).Reachable s := Pipeline.tinyAfter_reachable _
  have hsized : ∀ t i, (Params.tiny.header t i).entrySize.toNat < 13 :=
    fun _ _ => Nat.lt_succ_self 12
  have hpc : s.bg.pc = .outer := by decide +kernel
  have hqueue : s.pool.sinkBufQueue = [0] := by decide +kernel
  obtain ⟨-, hqueued, houter, -⟩ := hand_off_policy hsized hreach
  obtain ⟨hlimit, hrecent⟩ := houter hpc
  exact ⟨hpc, hqueue, hqueued 0 (by rw [hqueue]; exact List.mem_singleton_self 0),
    by decide +kernel, hlimit, fun r hr => (hrecent r hr).1⟩

end LockFreeRingBuf
