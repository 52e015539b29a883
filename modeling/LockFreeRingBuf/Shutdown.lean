import LockFreeRingBuf.PipelineHandoff

/-!
# The two shutdowns

`RingBufBG` leaves its outer loop without handing off the buffer it holds,
and `sinkBufBG` returns without looking at its queue. For each, exactly
when nothing is lost: the last draining iteration must happen to take the
periodic hand-off, and the queue must be empty when the flag is stored, or
hold one buffer that `sinkBufBG` is already on its way to pop.
-/

namespace LockFreeRingBuf

open Bytes Resumption Transition

variable {P : Params}

/-! ## `RingBufBG` -/

/-- The records in the buffers pushed onto `sinkBufQueue` so far. -/
def Pool.handedOver {R : Type} (pool : Pool R) : List R :=
  pool.written ++ pool.sink.unwritten.flatMap pool.records
    ++ pool.sinkBufQueue.flatMap pool.records

/-- Between the test of `j` and the end of the iteration. -/
def BgPc.draining : BgPc → Bool
  | .take => false
  | .outer => false
  | .flush => false
  | .exitFlag => false
  | .done => false
  | _ => true

namespace Pipeline

variable {s s' : Pipeline P}

theorem drained_eq_handedOver_iff (h : (pipeline P).Reachable s) :
    s.pool.drained = s.pool.handedOver ↔ s.CurrentEmpty := by
  rw [← (conserved h).drained_eq, Pool.handedOver, List.append_right_eq_self,
    List.flatMap_eq_nil_iff]
  simp only [Option.mem_toList, CurrentEmpty]

theorem j_lt (h : (pipeline P).Reachable s) :
    s.bg.pc.draining = true → s.bg.j < (P.addNum * P.threadNum : Nat) := by
  refine h.invariant
    (I := fun s : Pipeline P =>
      s.bg.pc.draining = true → s.bg.j < (P.addNum * P.threadNum : Nat)) ?_ ?_
  · rintro s ⟨arr, memory, rfl⟩
    intro hc
    cases hc
  · intro l u u' _ hu hstep
    cases step_moves hstep with
    | add _ hmove => rw [hmove.frame.2.2]; exact hu
    | sink _ => exact hu
    | bg hmove =>
        cases hmove with
        | enter _ hlt => exact fun _ => hlt
        | take | leave | idleIter | drainIter | flushIter | flush | exitFlag =>
            intro hc
            cases hc
        | _ =>
            have hpc := ‹u.bg.pc = _›
            exact fun _ => hu (by rw [hpc]; rfl)

theorem j_le (h : (pipeline P).Reachable s) :
    s.bg.j + s.bg.uncounted ≤ (P.addNum * P.threadNum : Nat) := by
  rw [← (drains h).counted]
  exact Int.ofNat_le.mpr (drained_le h)

/-- The iteration that ends here is the one that completes the drain. -/
def CompletesDrain (s : Pipeline P) : Prop :=
  s.bg.pc = .iterEnd ∧ s.bg.nPerItr ≠ 0
    ∧ s.bg.j + s.bg.nPerItr = (P.addNum * P.threadNum : Nat)

/-! ### Along a run -/

variable {ρ : Run (pipeline P)} {t : Nat}

/-- Until the drain is complete `RingBufBG` has not left the end of the
iteration that completes it; from then on the count says whether that
iteration took the periodic hand-off. -/
structure Settled (ρ : Run (pipeline P)) (t : Nat) : Prop where
  draining : (ρ.state t).bg.j < (P.addNum * P.threadNum : Nat) →
    ∀ x, x < t → (ρ.state x).CompletesDrain → (ρ.state x).bg = (ρ.state t).bg
  drained : (ρ.state t).bg.j = (P.addNum * P.threadNum : Nat) →
    ((ρ.state t).bg.pc = .flush ∨ (ρ.state t).bg.nItrWithNonEmptyBuf = 0
      ↔ ∀ x, x < t → (ρ.state x).CompletesDrain → 2000 < (ρ.state x).bg.nItrWithNonEmptyBuf + 1)

namespace Settled

/-- A step of another thread. -/
theorem other_step (h : Settled ρ t) (hbg : (ρ.state (t + 1)).bg = (ρ.state t).bg) :
    Settled ρ (t + 1) where
  draining hj x hx hc := by
    rw [hbg] at hj ⊢
    rcases Nat.lt_succ_iff_lt_or_eq.mp hx with hlt | rfl
    · exact h.draining hj x hlt hc
    · rfl
  drained hj := by
    rw [hbg] at hj ⊢
    rw [Nat.forall_lt_succ_right]
    refine (h.drained hj).trans (and_iff_left fun hc => ?_).symm
    obtain ⟨-, hne, hsum⟩ := hc
    omega

/-- A step of `RingBufBG` inside an iteration or between two of them. -/
theorem inner_step (h : Settled ρ t) (hmove : (ρ.state t).BgMoves (ρ.state (t + 1)))
    (hpc : (ρ.state t).bg.pc ≠ .iterEnd) : Settled ρ (t + 1) where
  draining hj x hx hc := by
    rw [hmove.j_eq hpc] at hj
    rcases Nat.lt_succ_iff_lt_or_eq.mp hx with hlt | rfl
    · have hsame := h.draining hj x hlt hc
      exact absurd (hsame ▸ hc.1) hpc
    · exact absurd hc.1 hpc
  drained hj := by
    rw [hmove.j_eq hpc] at hj
    rw [Nat.forall_lt_succ_right]
    refine Iff.trans ?_ ((h.drained hj).trans (and_iff_left fun hc => absurd hc.1 hpc).symm)
    have hout := mt (j_lt (ρ.reachable t)) (by omega)
    generalize ρ.state (t + 1) = s' at hmove
    cases hmove with
    | enter _ hlt => omega
    | flush hpc' => simp only [hpc', true_or, or_true]
    | take hpc' | leave hpc' | exitFlag hpc' => simp only [hpc', reduceCtorEq, false_or]
    | _ =>
        have hpc' := ‹(ρ.state t).bg.pc = _›
        exact absurd (by rw [hpc']; rfl) hout

/-- The end of an iteration that drained something. -/
theorem drained_step (h : Settled ρ t) (hpc : (ρ.state t).bg.pc = .iterEnd)
    (hne : (ρ.state t).bg.nPerItr ≠ 0)
    (hj : (ρ.state (t + 1)).bg.j = (ρ.state t).bg.j + (ρ.state t).bg.nPerItr)
    (hn : ((ρ.state (t + 1)).bg.pc = .flush ∨ (ρ.state (t + 1)).bg.nItrWithNonEmptyBuf = 0
      ↔ 2000 < (ρ.state t).bg.nItrWithNonEmptyBuf + 1)) : Settled ρ (t + 1) := by
  have hlt := j_lt (ρ.reachable t) (by rw [hpc]; rfl)
  have hsame : ∀ x, x < t + 1 → (ρ.state x).CompletesDrain → (ρ.state x).bg = (ρ.state t).bg := by
    intro x hx hc
    rcases Nat.lt_succ_iff_lt_or_eq.mp hx with hx | rfl
    · exact h.draining hlt x hx hc
    · rfl
  refine ⟨fun hj' x hx hc => ?_, fun hj' => hn.trans ⟨fun hflush x hx hc => ?_, fun hall => ?_⟩⟩
  · have hbg := hsame x hx hc
    obtain ⟨-, -, hsum⟩ := hc
    rw [hbg] at hsum
    omega
  · rw [hsame x hx hc]
    exact hflush
  · exact hall t (Nat.lt_succ_self t) ⟨hpc, hne, by omega⟩

/-- The end of an iteration that drained nothing. -/
theorem idle_step (h : Settled ρ t) (hpc : (ρ.state t).bg.pc = .iterEnd)
    (hzero : (ρ.state t).bg.nPerItr = 0)
    (hj : (ρ.state (t + 1)).bg.j = (ρ.state t).bg.j + (ρ.state t).bg.nPerItr) :
    Settled ρ (t + 1) := by
  have hlt := j_lt (ρ.reachable t) (by rw [hpc]; rfl)
  refine ⟨fun _ x hx hc => ?_, fun hj' => by omega⟩
  rcases Nat.lt_succ_iff_lt_or_eq.mp hx with hx | rfl
  · have hsame := h.draining hlt x hx hc
    obtain ⟨-, hne, -⟩ := hc
    rw [hsame] at hne
    exact absurd hzero hne
  · exact absurd hzero hc.2.1

/-- The end of an iteration, by what `RingBufBG` does there. -/
theorem iterEnd_step (h : Settled ρ t) (hmove : (ρ.state t).BgMoves (ρ.state (t + 1)))
    (hpc : (ρ.state t).bg.pc = .iterEnd) : Settled ρ (t + 1) := by
  generalize hs : ρ.state (t + 1) = s' at hmove
  cases hmove with
  | idleIter _ hzero => exact h.idle_step hpc hzero (by rw [hs])
  | drainIter _ hne hflush =>
      refine h.drained_step hpc hne (by rw [hs]) ?_
      rw [hs]
      simpa only [reduceCtorEq, false_or, false_iff] using hflush
  | flushIter _ hne hflush =>
      refine h.drained_step hpc hne (by rw [hs]) ?_
      rw [hs]
      exact iff_of_true (.inl rfl) hflush
  | _ =>
      have hpc' := ‹(ρ.state t).bg.pc = _›
      rw [hpc] at hpc'
      cases hpc'

theorem of_run (ρ : Run (pipeline P)) (t : Nat) : Settled ρ t := by
  induction t with
  | zero =>
      obtain ⟨arr, memory, hmain⟩ := ρ.start
      refine ⟨fun _ x hx => absurd hx (Nat.not_lt_zero x), fun _ => iff_of_true (.inr ?_) ?_⟩
      · rw [hmain]
        rfl
      · exact fun x hx => absurd hx (Nat.not_lt_zero x)
  | succ t ih =>
      rcases ρ.next t with ⟨-, hsame⟩ | ⟨l, -, hstep⟩
      · exact ih.other_step (by rw [hsame])
      · have hmoves := step_moves hstep
        generalize hs : ρ.state (t + 1) = s' at hmoves
        cases hmoves with
        | add _ hmove => exact ih.other_step (by rw [hs]; exact hmove.frame.2.2)
        | sink _ => exact ih.other_step (by rw [hs])
        | bg hmove =>
            by_cases hpc : (ρ.state t).bg.pc = .iterEnd
            · exact ih.iterEnd_step (hs ▸ hmove) hpc
            · exact ih.inner_step (hs ▸ hmove) hpc

end Settled

end Pipeline

/-- In every run, when `RingBufBG` has left its loop: every record it has
drained is in a buffer it has handed to the sink if and only if the
iteration that completed the drain took the periodic hand-off. -/
theorem last_records_handed_over_iff (ρ : Run (pipeline P)) {t : Nat}
    (hexit : (ρ.state t).bg.pc = .exitFlag) :
    (ρ.state t).pool.drained = (ρ.state t).pool.handedOver
      ↔ ∀ x, x < t → (ρ.state x).CompletesDrain →
        2000 < (ρ.state x).bg.nItrWithNonEmptyBuf + 1 := by
  have hreach := ρ.reachable t
  have hzero : (ρ.state t).bg.uncounted = 0 := by simp only [RingBufBG.uncounted, hexit]
  have hle := Pipeline.j_le hreach
  have hge := (Pipeline.drains hreach).exited (.inl hexit)
  have hsettled := (Pipeline.Settled.of_run ρ t).drained (by omega)
  simp only [hexit, reduceCtorEq, false_or] at hsettled
  rw [Pipeline.drained_eq_handedOver_iff hreach, ← hsettled]
  exact ((Pipeline.handsOff hreach).counted hzero).symm

/-- In the tiny pipeline the loop is left after one draining iteration, so
the condition fails, and one record of two was handed over. -/
theorem last_records_handed_over_iff_tiny :
    ∃ (ρ : Run (pipeline .tiny)) (t : Nat), (ρ.state t).bg.pc = .exitFlag
      ∧ ¬ ∀ x, x < t → (ρ.state x).CompletesDrain →
        2000 < (ρ.state x).bg.nItrWithNonEmptyBuf + 1 := by
  let s := Pipeline.tinyAfter [(.add 0 5#64, 27), (.bg, 31)]
  have hreach : (pipeline .tiny).Reachable s := Pipeline.tinyAfter_reachable _
  obtain ⟨ρ, t, hs⟩ := hreach.exists_run
  have hexit : (ρ.state t).bg.pc = .exitFlag := by rw [hs]; decide +kernel
  refine ⟨ρ, t, hexit, fun hall => ?_⟩
  have hlength := congrArg List.length ((last_records_handed_over_iff ρ hexit).mpr hall)
  rw [hs] at hlength
  exact absurd hlength (by decide +kernel)

/-- Not every run hands the last records over: both records drained, one of
them handed to the sink, the other left in the buffer `RingBufBG` holds. -/
theorem last_records_left_behind :
    ¬ ∀ (ρ : Run (pipeline .tiny)) (t : Nat), (ρ.state t).bg.pc = .exitFlag →
      (ρ.state t).pool.drained = (ρ.state t).pool.handedOver := by
  intro hall
  let s := Pipeline.tinyAfter [(.add 0 5#64, 27), (.bg, 31)]
  have hreach : (pipeline .tiny).Reachable s := Pipeline.tinyAfter_reachable _
  obtain ⟨ρ, t, hs⟩ := hreach.exists_run
  have hexit : (ρ.state t).bg.pc = .exitFlag := by rw [hs]; decide +kernel
  have hlength := congrArg List.length (hall ρ t hexit)
  rw [hs] at hlength
  exact absurd hlength (by decide +kernel)

/-! ## `sinkBufBG` -/

/-- Every buffer pushed was written, in the order and with the bytes of the
pushes, and none is waiting. -/
def Pool.AllWritten {R : Type} (pool : Pool R) : Prop :=
  pool.writes = pool.pushes ∧ pool.sinkBufQueue = []

/-- Nothing is queued, or one buffer that `sinkBufBG` pops before it tests the
flag again. -/
def Pool.PopsLast {R : Type} (pool : Pool R) : Prop :=
  pool.sinkBufQueue = []
    ∨ pool.sinkBufQueue.length = 1 ∧ (pool.sink = .sizeTest ∨ pool.sink = .pop)

namespace Pool

variable {R : Type} {CacheBufQueueSize : Nat} {s s' : Pool R}

/-- Once the flag is set and nothing more is pushed, `sinkBufBG` decides
nothing. -/
theorem Moves.popsLast_iff (hmove : s.Moves CacheBufQueueSize .sink s')
    (hflag : s.sinkBufBGExit = true) : s'.PopsLast ↔ s.PopsLast := by
  unfold PopsLast
  cases hmove with
  | exitTest hsink => simp only [hsink, hflag, if_true, reduceCtorEq, or_false, and_false]
  | sizeTest hsink =>
      by_cases hlen : s.sinkBufQueue.length > 0
      · simp only [hsink, if_pos hlen, reduceCtorEq, or_true, or_false]
      · have hnil : s.sinkBufQueue = [] := List.eq_nil_of_length_eq_zero (by omega)
        exact iff_of_true (.inl hnil) (.inl hnil)
  | pop hsink hqueue =>
      simp only [hsink, hqueue, reduceCtorEq, or_false, or_true, and_false, and_true, false_or,
        List.length_cons, Nat.add_eq_right, List.length_eq_zero_iff]
  | cacheTest hsink =>
      simp only [hsink]
      split <;> simp only [reduceCtorEq, or_false, and_false]
  | write hsink | reset hsink | delete hsink | pushBack hsink =>
      simp only [hsink, reduceCtorEq, or_false, and_false]

theorem Moves.sink_flag (hmove : s.Moves CacheBufQueueSize .sink s') :
    s'.sinkBufBGExit = s.sinkBufBGExit := by
  cases hmove <;> rfl

/-- `sinkBufBG` returns only after it has seen the flag. -/
theorem flag_of_done (h : (poolSystem R CacheBufQueueSize).Reachable s) :
    s.sink = .done → s.sinkBufBGExit = true := by
  refine h.invariant (I := fun s : Pool R => s.sink = .done → s.sinkBufBGExit = true) ?_ ?_
  · rintro s ⟨memory, rfl⟩
    intro hc
    cases hc
  · intro l u u' _ hu hstep
    cases step_moves hstep with
    | exit => exact fun _ => rfl
    | exitTest hsink =>
        intro hdone
        simp only at hdone
        split at hdone
        · next hflag => exact hflag
        · cases hdone
    | sizeTest hsink | cacheTest hsink =>
        intro hdone
        simp only at hdone
        split at hdone <;> cases hdone
    | pop | write | reset | delete | pushBack =>
        intro hc
        cases hc
    | _ => exact hu

/-- When `sinkBufBG` has returned, what is not queued was written. -/
theorem allWritten_iff (h : s.Logged) (hdone : s.sink = .done) :
    s.AllWritten ↔ s.sinkBufQueue = [] := by
  refine ⟨fun hall => hall.2, fun hnil => ⟨?_, hnil⟩⟩
  have heq : _ = s.pushes := h
  simpa only [hdone, hnil, SinkBufBG.unwritten, List.map_nil, List.append_nil] using heq

end Pool

namespace Pipeline

variable {s s' : Pipeline P}

theorem BgMoves.pc_ne_done (hmove : s.BgMoves s') : s.bg.pc ≠ .done := by
  cases hmove with
  | _ =>
      have hpc := ‹s.bg.pc = _›
      simp [hpc]

/-- The last step of `RingBufBG` sets the flag. -/
theorem BgMoves.exit_eq (hmove : s.BgMoves s') (hpc : s.bg.pc = .exitFlag) :
    s' = { s with pool := s.pool.exit, bg := { s.bg with pc := .done } } := by
  cases hmove with
  | exitFlag _ hpool =>
      cases Pool.step_moves hpool with
      | exit => rfl
  | _ =>
      have hpc' := ‹s.bg.pc = _›
      rw [hpc] at hpc'
      cases hpc'

/-- No other step of `RingBufBG` touches the flag. -/
theorem BgMoves.flag_eq (hmove : s.BgMoves s') (hpc : s.bg.pc ≠ .exitFlag) :
    s'.pool.sinkBufBGExit = s.pool.sinkBufBGExit := by
  rcases hmove.pool_cases with ⟨-, hsame⟩ | ⟨c, hpool, hexit⟩
  · rw [hsame]
  · generalize s'.pool = pool at hpool ⊢
    cases Pool.step_moves hpool with
    | exit => exact absurd (hexit rfl) hpc
    | _ => rfl

theorem done_of_flag (h : (pipeline P).Reachable s) :
    s.pool.sinkBufBGExit = true → s.bg.pc = .done := by
  refine h.invariant
    (I := fun s : Pipeline P => s.pool.sinkBufBGExit = true → s.bg.pc = .done) ?_ ?_
  · rintro s ⟨arr, memory, rfl⟩
    intro hc
    cases hc
  · intro l u u' _ hu hstep
    cases step_moves hstep with
    | add _ hmove =>
        obtain ⟨-, hpool, hbg⟩ := hmove.frame
        rw [hpool, hbg]
        exact hu
    | sink hpool => exact fun hflag => hu ((Pool.step_moves hpool).sink_flag.symm.trans hflag)
    | bg hmove =>
        intro hflag
        by_cases hpc : u.bg.pc = .exitFlag
        · rw [hmove.exit_eq hpc]
        · exact absurd (hu ((hmove.flag_eq hpc).symm.trans hflag)) hmove.pc_ne_done

/-- At time `x` `RingBufBG` stores the flag. -/
def SetsFlag (ρ : Run (pipeline P)) (x : Nat) : Prop :=
  ρ.label x = some .bg ∧ (ρ.state x).bg.pc = .exitFlag

/-- The flag was stored at some earlier time, and what `sinkBufBG` would pop
then it has popped or will pop. -/
theorem flag_stored (ρ : Run (pipeline P)) (t : Nat)
    (hflag : (ρ.state t).pool.sinkBufBGExit = true) :
    ∃ x, x < t ∧ SetsFlag ρ x ∧ ((ρ.state t).pool.PopsLast ↔ (ρ.state x).pool.PopsLast) := by
  induction t with
  | zero =>
      obtain ⟨arr, memory, hmain⟩ := ρ.start
      rw [hmain] at hflag
      cases hflag
  | succ t ih =>
      have hearlier : (ρ.state t).pool.sinkBufBGExit = true →
          ((ρ.state (t + 1)).pool.PopsLast ↔ (ρ.state t).pool.PopsLast) →
          ∃ x, x < t + 1 ∧ SetsFlag ρ x
            ∧ ((ρ.state (t + 1)).pool.PopsLast ↔ (ρ.state x).pool.PopsLast) := by
        intro hflag hiff
        obtain ⟨x, hx, hsets, hlast⟩ := ih hflag
        exact ⟨x, Nat.lt_succ_of_lt hx, hsets, hiff.trans hlast⟩
      rcases ρ.next t with ⟨-, hsame⟩ | ⟨l, hlabel, hstep⟩
      · rw [hsame] at hflag
        exact hearlier hflag (by rw [hsame])
      · have hmoves := step_moves hstep
        generalize hs : ρ.state (t + 1) = s' at hmoves hflag
        cases hmoves with
        | add _ hmove =>
            obtain ⟨-, hpool, -⟩ := hmove.frame
            rw [hpool] at hflag
            exact hs ▸ hearlier hflag (by rw [hs, hpool])
        | sink hpool =>
            have hmove := Pool.step_moves hpool
            have hbefore := hmove.sink_flag.symm.trans hflag
            exact hs ▸ hearlier hbefore (by rw [hs]; exact hmove.popsLast_iff hbefore)
        | bg hmove =>
            by_cases hpc : (ρ.state t).bg.pc = .exitFlag
            · rw [hmove.exit_eq hpc]
              exact ⟨t, Nat.lt_succ_self t, ⟨hlabel, hpc⟩, Iff.rfl⟩
            · have hdone := done_of_flag (ρ.reachable t) ((hmove.flag_eq hpc).symm.trans hflag)
              exact absurd hdone hmove.pc_ne_done

end Pipeline

/-- In every run, when `sinkBufBG` has returned: every buffer ever pushed was
written, once and in order, if and only if at the time the flag was stored
the queue was empty, or held one buffer that `sinkBufBG` was about to pop. The
file holds the bytes of what was written, and no others. -/
theorem sink_drains_queue_iff (ρ : Run (pipeline P)) {t : Nat}
    (hdone : (ρ.state t).pool.sink = .done) :
    ∃ x, x < t ∧ Pipeline.SetsFlag ρ x
      ∧ ((ρ.state t).pool.AllWritten ↔ (ρ.state x).pool.PopsLast)
      ∧ (ρ.state t).pool.file = (ρ.state t).pool.writes.flatMap Prod.snd := by
  have hreach := ρ.reachable t
  have hflag := Pool.flag_of_done (Pipeline.pool_reachable hreach) hdone
  obtain ⟨x, hx, hsets, hlast⟩ := Pipeline.flag_stored ρ t hflag
  refine ⟨x, hx, hsets, (Pool.allWritten_iff (Pipeline.logged hreach) hdone).trans
    (Iff.trans ?_ hlast), Pipeline.file_eq_writes hreach⟩
  simp only [Pool.PopsLast, hdone, reduceCtorEq, or_false, and_false]

/-- The flag is stored while `sinkBufBG` is past its test of it. -/
theorem sink_drains_queue_iff_tiny :
    ∃ (ρ : Run (pipeline .tiny)) (t x : Nat), (ρ.state t).pool.sink = .done ∧ x < t
      ∧ (ρ.state t).pool.AllWritten ∧ (ρ.state x).pool.PopsLast
      ∧ (ρ.state t).pool.file = (ρ.state t).pool.writes.flatMap Prod.snd := by
  let s := Pipeline.tinyAfter [(.add 0 5#64, 27), (.bg, 31), (.sink, 1), (.bg, 1), (.sink, 7)]
  have hreach : (pipeline .tiny).Reachable s := Pipeline.tinyAfter_reachable _
  obtain ⟨ρ, t, hs⟩ := hreach.exists_run
  have hdone : (ρ.state t).pool.sink = .done := by rw [hs]; decide +kernel
  have hall : (ρ.state t).pool.AllWritten := by
    rw [hs]
    exact ⟨by decide +kernel, by decide +kernel⟩
  obtain ⟨x, hx, -, hiff, hfile⟩ := sink_drains_queue_iff ρ hdone
  exact ⟨ρ, t, x, hdone, hx, hall, hiff.mp hall, hfile⟩

/-- Not every run drains the queue: one buffer is queued when the flag is
stored and `sinkBufBG` tests the flag first. -/
theorem sink_leaves_queue :
    ¬ ∀ (ρ : Run (pipeline .tiny)) (t : Nat), (ρ.state t).pool.sink = .done →
      (ρ.state t).pool.AllWritten := by
  intro hall
  let s := Pipeline.tinyAfter [(.add 0 5#64, 27), (.bg, 32), (.sink, 1)]
  have hreach : (pipeline .tiny).Reachable s := Pipeline.tinyAfter_reachable _
  obtain ⟨ρ, t, hs⟩ := hreach.exists_run
  have hdone : (ρ.state t).pool.sink = .done := by rw [hs]; decide +kernel
  have hempty := (hall ρ t hdone).2
  rw [hs] at hempty
  exact absurd hempty (by decide +kernel)

end LockFreeRingBuf
