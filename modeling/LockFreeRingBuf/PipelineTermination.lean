import LockFreeRingBuf.PipelineLatency

/-!
# The program terminates

Under a scheduler that is fair to each thread, every thread returns. A
record in a ring is copied out (`PipelineLatency`), so a producer that waits
for room is given room and comes to its last record; then the rings run
empty, the outer loop ends, the flag is set, and `sinkBufBG` sees it.
-/

namespace LockFreeRingBuf

open Bytes Resumption Transition

variable {P : Params}

namespace Pipeline

variable {s s' : Pipeline P}

/-! ## What holds once a thread is done -/

/-- A thread returns from `add` with all its records published. -/
theorem published_of_done (h : (pipeline P).Reachable s) {i : Nat} (hpc : (s.adds i).pc = .done) :
    (s.rings i).shared.published.length = P.addNum := by
  have hlast : (s.adds i).pc = .done → P.addNum ≤ (s.adds i).i := by
    refine h.invariant (I := fun s => (s.adds i).pc = .done → P.addNum ≤ (s.adds i).i) ?_ ?_
    · rintro s ⟨arr, memory, rfl⟩ hdone
      cases hdone
    · intro l u u' _ hu hstep
      cases step_moves hstep with
      | sink => exact hu
      | bg hmove =>
          rw [hmove.adds_eq]
          exact hu
      | @add k tsc _ hk hmove =>
          by_cases hik : i = k
          · subst hik
            cases hmove with
            | stop _ hge => exact fun _ => Nat.le_of_not_lt (by simpa using hge)
            | reserving hpc | finishing hpc =>
                intro hdone
                rw [hpc] at hdone
                cases hdone
            | _ =>
                intro hdone
                simp only [Function.update_self] at hdone
                cases hdone
          · rw [(hmove.elsewhere hik).1]
            exact hu
  have hat := (coupled h).adds i
  simp only [AddThread.At, hpc] at hat
  have hge := hlast hpc
  omega

theorem flag_of_done (h : (pipeline P).Reachable s) :
    s.bg.pc = .done → s.pool.sinkBufBGExit = true := by
  refine h.invariant (I := fun s : Pipeline P => s.bg.pc = .done → s.pool.sinkBufBGExit = true)
    ?_ ?_
  · rintro s ⟨arr, memory, rfl⟩ hdone
    cases hdone
  · intro l u u' _ hu hstep
    cases step_moves hstep with
    | add _ hmove =>
        rw [hmove.frame.2.1, hmove.frame.2.2]
        exact hu
    | sink hpool => cases Pool.step_moves hpool <;> exact hu
    | bg hmove =>
        cases hmove with
        | exitFlag _ hpool =>
            intro _
            cases Pool.step_moves hpool with
            | exit => rfl
        | peeking hpc | consuming hpc =>
            intro hdone
            rw [hpc] at hdone
            cases hdone
        | _ =>
            intro hdone
            cases hdone

theorem added_le (h : (pipeline P).Reachable s) (i : Nat) : (s.adds i).i ≤ P.addNum := by
  have hat := (coupled h).adds i
  unfold AddThread.At at hat
  cases hpc : (s.adds i).pc with
  | test | done =>
      simp only [hpc] at hat
      exact hat.2.2
  | finishing =>
      simp only [hpc] at hat
      exact Nat.le_of_lt hat.2
  | _ =>
      simp only [hpc] at hat
      exact Nat.le_of_lt hat.2.2

theorem consumed_le (h : (pipeline P).Reachable s) (i : Nat) :
    (s.rings i).shared.consumed.length ≤ P.addNum :=
  Nat.le_trans (List.prefix_append _ _).length_le (collected_le h i)

/-- Every ring has given up all that is ever published in it. -/
def AllConsumed (s : Pipeline P) : Prop :=
  ∀ i, i < P.threadNum → (s.rings i).shared.consumed.length = P.addNum

theorem consumed_full_step (h : (pipeline P).Reachable s) {l : PipelineLabel}
    (hstep : Pipeline.step l s = some s') {i : Nat}
    (hfull : (s.rings i).shared.consumed.length = P.addNum) :
    (s'.rings i).shared.consumed.length = P.addNum := by
  have hle := consumed_le (step_reachable h hstep) i
  have hmono := consumed_mono hstep i
  rw [hfull] at hmono
  exact Nat.le_antisymm hle hmono

theorem AllConsumed.step (h : s.AllConsumed) (hreach : (pipeline P).Reachable s)
    {l : PipelineLabel} (hstep : Pipeline.step l s = some s') : s'.AllConsumed :=
  fun i hi => consumed_full_step hreach hstep (h i hi)

/-- When all is consumed, the test of `j` fails. -/
theorem AllConsumed.j_full (hall : s.AllConsumed) (h : (pipeline P).Reachable s)
    (hpc : s.bg.pc = .outer) : ¬ s.bg.j < (P.addNum * P.threadNum : Nat) := by
  have hcounted := (drains h).counted
  have hsum : ∑ i ∈ Finset.range P.threadNum, (s.rings i).collected.length
      = P.addNum * P.threadNum := by
    rw [← sum_addNum]
    refine Finset.sum_congr rfl ?_
    intro i hi
    rw [collected_of_between h (.inl hpc), hall i (Finset.mem_range.mp hi)]
  simp only [RingBufBG.uncounted, hpc, (drains h).length_eq, hsum] at hcounted
  omega

theorem adds_mono {l : PipelineLabel} (hstep : Pipeline.step l s = some s') (i : Nat) :
    (s.adds i).i ≤ (s'.adds i).i := by
  cases step_moves hstep with
  | sink => exact Nat.le_refl _
  | bg hmove =>
      rw [hmove.adds_eq]
  | @add k tsc _ hk hmove =>
      by_cases hik : i = k
      · subst hik
        cases hmove with
        | finished =>
            simp only [Function.update_self]
            exact Nat.le_succ _
        | reserving | finishing => exact Nat.le_refl _
        | _ =>
            simp only [Function.update_self]
            exact Nat.le_refl _
      · rw [(hmove.elsewhere hik).1]

theorem done_step {l : PipelineLabel} (hstep : Pipeline.step l s = some s') {i : Nat}
    (hpc : (s.adds i).pc = .done) : (s'.adds i).pc = .done := by
  cases step_moves hstep with
  | sink => exact hpc
  | bg hmove =>
      rw [hmove.adds_eq]
      exact hpc
  | @add k tsc _ hk hmove =>
      by_cases hik : i = k
      · subst hik
        cases hmove <;> simp [‹(s.adds i).pc = _›] at hpc
      · rw [(hmove.elsewhere hik).1]
        exact hpc

theorem bg_done_step {l : PipelineLabel} (hstep : Pipeline.step l s = some s')
    (hpc : s.bg.pc = .done) : s'.bg.pc = .done := by
  cases step_moves hstep with
  | add _ hmove =>
      rw [hmove.frame.2.2]
      exact hpc
  | sink => exact hpc
  | bg hmove => cases hmove <;> cases hpc.symm.trans ‹s.bg.pc = _›

end Pipeline

/-! ## Runs -/

/-- Each thread gets its turns. -/
structure FairRun (ρ : Run (pipeline P)) : Prop where
  adds : ∀ i, i < P.threadNum → ρ.Fair (PipelineLabel.isAdd i)
  bg : ρ.Fair PipelineLabel.isBg
  sink : ρ.Fair PipelineLabel.isSink

namespace FairRun

open Pipeline

variable {ρ : Run (pipeline P)} {i : Nat}

section

variable (hsized : ∀ t i, (P.header t i).entrySize.toNat < P.sinkBufferSize)
  (hbatch : 0 < P.batchSizePop)

include hsized hbatch

omit hbatch in
/-- A promise of `RingBufBG` is kept, unless it has returned before. -/
theorem bg_keeps (hfair : FairRun ρ) {n : Nat} {F Q R : Pipeline P → Prop}
    (h : ρ.LeadsWithin PipelineLabel.isBg n F Q)
    (hkeep : ∀ l s s', (pipeline P).Reachable s → R s → Pipeline.step l s = some s' → R s')
    (hdone : ∀ s, (pipeline P).Reachable s → R s → s.bg.pc = .done → Q s) :
    ρ.LeadsTo (fun s => F s ∧ R s) Q := by
  refine h.leadsTo hfair.bg hkeep ?_
  intro s hs hR
  by_cases hpc : s.bg.pc = .done
  · exact .inl (hdone s hs hR hpc)
  · exact .inr ⟨.bg, rfl, bg_enabled hsized hs hpc⟩

/-- A record that is published is consumed. -/
theorem ring_releases (hfair : FairRun ρ) (hi : i < P.threadNum) (c : Nat) :
    ρ.LeadsTo (fun s => s.Owes i c c) (fun s => c < (s.rings i).shared.consumed.length) := by
  have hwithin : ρ.LeadsWithin PipelineLabel.isBg _ (Owes i c c)
      (fun s => c < (s.rings i).shared.consumed.length) :=
    BgRun.ring_releases hsized hi (n := 1) (by omega)
  refine (bg_keeps hsized hfair hwithin (R := fun s => s.Owes i c c)
    (fun _ _ _ hs h hstep => h.step hs hstep) ?_).mono (fun _ _ h => ⟨h, h⟩) fun _ _ h => h
  intro s hs howes hdone
  have hlt := howes.exited hs hi (.inr hdone)
  rwa [collected_of_between hs (.inr (.inr (.inr hdone)))] at hlt

omit hsized hbatch in
/-- With room in its ring, a thread comes to its next record. -/
theorem record_added (hfair : FairRun ρ) (hi : i < P.threadNum) (a : Nat) :
    ρ.LeadsTo (fun s => ∃ m, s.Adding i m ∧ (s.adds i).i = a)
      (fun s => (s.adds i).pc = .done ∨ a < (s.adds i).i) := by
  refine .of_turns (hfair.adds i hi) (fun m s hs ha => .inr ?_) ?_
  · refine ⟨.add i 0, beq_self_eq_true i, add_enabled hs hi (fun hdone => ?_) 0⟩
    have hadding := ha.1
    simp only [Adding, hdone] at hadding
  · rintro m l s s' hs ⟨ha, rfl⟩ hstep
    rcases ha.step hs hstep with hnext | ⟨k, hk, hsame, hle⟩
    · exact .inl hnext
    · exact .inr ⟨k, ⟨hk, hsame⟩, hle⟩

/-- A thread that has not returned adds a record, or room is made for it. -/
theorem thread_advances (hfair : FairRun ρ) (hi : i < P.threadNum) {t : Nat}
    (hdone : ((ρ.state t).adds i).pc ≠ .done) :
    ∃ u, t ≤ u ∧ (((ρ.state u).adds i).pc = .done
      ∨ ((ρ.state t).adds i).i < ((ρ.state u).adds i).i
      ∨ ((ρ.state t).rings i).shared.consumed.length
        < ((ρ.state u).rings i).shared.consumed.length) := by
  by_cases hroom : ((ρ.state t).rings i).Roomy P.ringBufSize
  · obtain ⟨m, hm⟩ := Adding.of_room (ρ.reachable t) hdone hroom
    obtain ⟨u, htu, hu⟩ := record_added hfair hi _ t ⟨m, hm, rfl⟩
    exact ⟨u, htu, hu.imp_right .inl⟩
  · have hpos := P.ringBufSize.size_pos
    unfold Config.Roomy at hroom
    obtain ⟨u, htu, hu⟩ := ring_releases hsized hbatch hfair hi _ t
      ⟨by omega, (List.prefix_append _ _).length_le⟩
    exact ⟨u, htu, .inr (.inr hu)⟩

/-- Every thread returns from `add`. -/
theorem add_returns (hfair : FairRun ρ) (hi : i < P.threadNum) :
    ρ.LeadsTo (fun _ => True) (fun s => (s.adds i).pc = .done) := by
  -- Records still to be added, and records still to be consumed.
  let rank (s : Pipeline P) : Nat :=
    (P.addNum - (s.adds i).i) + (P.addNum - (s.rings i).shared.consumed.length)
  refine .of_rank rank ?_
  rintro n t ⟨-, rfl⟩
  by_cases hdone : ((ρ.state t).adds i).pc = .done
  · exact ⟨t, Nat.le_refl t, .inl hdone⟩
  obtain ⟨u, htu, hu⟩ := thread_advances hsized hbatch hfair hi hdone
  refine ⟨u, htu, hu.imp_right fun hu => ⟨trivial, ?_⟩⟩
  have hadded : ((ρ.state t).adds i).i ≤ ((ρ.state u).adds i).i :=
    Run.keeps (P := fun s : Pipeline P => ((ρ.state t).adds i).i ≤ (s.adds i).i)
      (fun _ _ _ _ h hstep => Nat.le_trans h (adds_mono hstep i)) htu (Nat.le_refl _)
  have hconsumed : ((ρ.state t).rings i).shared.consumed.length
      ≤ ((ρ.state u).rings i).shared.consumed.length :=
    Run.keeps (P := fun s : Pipeline P => ((ρ.state t).rings i).shared.consumed.length
        ≤ (s.rings i).shared.consumed.length)
      (fun _ _ _ _ h hstep => Nat.le_trans h (consumed_mono hstep i)) htu (Nat.le_refl _)
  have hle := added_le (ρ.reachable u) i
  have hle' := consumed_le (ρ.reachable u) i
  show rank (ρ.state u) < rank (ρ.state t)
  simp only [rank]
  omega

/-- Once its producer has returned, a ring runs empty. -/
theorem ring_empties (hfair : FairRun ρ) (hi : i < P.threadNum) :
    ρ.LeadsTo (fun s => (s.adds i).pc = .done)
      (fun s => (s.rings i).shared.consumed.length = P.addNum) := by
  refine .of_rank (fun s => P.addNum - (s.rings i).shared.consumed.length) ?_
  rintro n t ⟨hdone, rfl⟩
  have hpublished := published_of_done (ρ.reachable t) hdone
  have hle := consumed_le (ρ.reachable t) i
  rcases Nat.lt_or_ge ((ρ.state t).rings i).shared.consumed.length P.addNum with hlt | hge
  · obtain ⟨u, htu, hu⟩ := ring_releases hsized hbatch hfair hi _ t
      ⟨by rw [hpublished]; exact hlt, (List.prefix_append _ _).length_le⟩
    have hdone' : ((ρ.state u).adds i).pc = .done :=
      Run.keeps (P := fun s : Pipeline P => (s.adds i).pc = .done)
        (fun _ _ _ _ h hstep => done_step hstep h) htu hdone
    exact ⟨u, htu, .inr ⟨hdone', by omega⟩⟩
  · exact ⟨t, Nat.le_refl t, .inl (Nat.le_antisymm hle hge)⟩

omit hbatch in
/-- `RingBufBG` returns once all is consumed. -/
theorem bg_returns (hfair : FairRun ρ) :
    ρ.LeadsTo AllConsumed (fun s => s.bg.pc = .done) := by
  have hkeep : ∀ l s s', (pipeline P).Reachable s → s.AllConsumed →
      Pipeline.step l s = some s' → s'.AllConsumed := fun _ _ _ hs h hstep => h.step hs hstep
  have hexit : ρ.LeadsWithin PipelineLabel.isBg 1 (fun s => s.bg.pc = .exitFlag)
      (fun s => s.bg.pc = .done) := by
    refine BgRun.bg_turn (F := fun bg => bg.pc = .exitFlag) ?_
    intro s s' _ hpc hmove
    cases hmove with
    | exitFlag => rfl
    | _ => cases hpc.symm.trans ‹s.bg.pc = _›
  have hleave : ρ.LeadsWithin PipelineLabel.isBg 1
      (fun s => s.bg.pc = .outer ∧ ¬ s.bg.j < (P.addNum * P.threadNum : Nat))
      (fun s => s.bg.pc = .exitFlag) := by
    refine BgRun.bg_turn
      (F := fun bg => bg.pc = .outer ∧ ¬ bg.j < (P.addNum * P.threadNum : Nat)) ?_
    rintro s s' - ⟨hpc, hge⟩ hmove
    cases hmove with
    | leave => rfl
    | enter _ hlt => exact absurd hlt hge
    | _ => cases hpc.symm.trans ‹s.bg.pc = _›
  have hends : ρ.LeadsWithin PipelineLabel.isBg _
      (fun s => (s.bg.pc = .forTest ∧ s.bg.index = 0) ∧ s.AllConsumed)
      (fun s => s.bg.pc = .outer ∧ ¬ s.bg.j < (P.addNum * P.threadNum : Nat)) :=
    ((BgRun.iteration_ends hsized 0).and_kept hkeep).mono (fun _ _ h => h)
      fun s hs h => ⟨h.1, h.2.j_full hs h.1⟩
  have hcomes := (bg_keeps hsized hfair (BgRun.comes_to hsized (Nat.zero_le _)) hkeep
    fun _ _ _ hdone => .inl (.inr hdone)).and_kept hkeep
  have hring := bg_keeps hsized hfair ((hends.trans hleave).trans hexit) hkeep fun _ _ _ h => h
  intro t hall
  obtain ⟨u, htu, (hpc | hpc) | hpc, hu⟩ := hcomes t ⟨⟨trivial, hall⟩, hall⟩
  · obtain ⟨v, huv, hv⟩ := bg_keeps hsized hfair hexit hkeep (fun _ _ _ h => h) u ⟨hpc, hu⟩
    exact ⟨v, Nat.le_trans htu huv, hv⟩
  · exact ⟨u, htu, hpc⟩
  · obtain ⟨v, huv, hv⟩ := hring u ⟨⟨hpc, hu⟩, hu⟩
    exact ⟨v, Nat.le_trans htu huv, hv⟩

end

/-- `sinkBufBG` returns once the flag is set. -/
theorem sink_returns (hfair : FairRun ρ) :
    ρ.LeadsTo (fun s => s.bg.pc = .done) (fun s => s.pool.sink = .done) := by
  have hturns : ρ.LeadsTo (fun s => ∃ m, s.pool.sinkBufBGExit = true ∧ s.sinkLeft ≤ m)
      (fun s => s.pool.sink = .done) := by
    refine .of_turns hfair.sink (fun m s hs _ => ?_) ?_
    · by_cases hdone : s.pool.sink = .done
      · exact .inl hdone
      · exact .inr ⟨.sink, rfl, sink_enabled hs hdone⟩
    · rintro m l s s' hs ⟨hflag, hle⟩ hstep
      obtain ⟨hflag', hlt⟩ := sinkLeft_step hstep hflag
      exact .inr ⟨s'.sinkLeft, ⟨hflag', Nat.le_refl _⟩, Nat.le_trans hlt hle⟩
  exact hturns.mono (fun s hs hpc => ⟨_, flag_of_done hs hpc, Nat.le_refl _⟩) fun _ _ h => h

end FairRun

/-! ## The end -/

open Pipeline

/-- Every thread has returned. -/
structure Pipeline.Finished (s : Pipeline P) : Prop where
  adds : ∀ i, i < P.threadNum → (s.adds i).pc = .done
  bg : s.bg.pc = .done
  sink : s.pool.sink = .done

theorem Pipeline.Finished.step_eq_none {s : Pipeline P} (h : s.Finished) (l : PipelineLabel) :
    Pipeline.step l s = none := by
  cases l with
  | add i tsc =>
      by_cases hi : i < P.threadNum
      · simp [Pipeline.step, hi, addStep, h.adds i hi]
      · simp [Pipeline.step, hi]
  | bg => simp [Pipeline.step, bgStep, h.bg]
  | sink => simp [Pipeline.step, Pool.sinkStep, h.sink]

/-- In every run that is fair to each thread, whatever the order of their steps,
every thread returns, provided each record fits an empty buffer and `peek` is
asked for at least one element. From then on nothing changes any more: each
producer has published all its records, and each has been copied out of its
ring. -/
theorem pipeline_terminates (ρ : Run (pipeline P)) (hfair : FairRun ρ)
    (hsized : ∀ t i, (P.header t i).entrySize.toNat < P.sinkBufferSize)
    (hbatch : 0 < P.batchSizePop) :
    ∃ t, (ρ.state t).Finished ∧ (∀ u, t ≤ u → ρ.state u = ρ.state t)
      ∧ ∀ i, i < P.threadNum →
        ((ρ.state t).rings i).shared.published.length = P.addNum
          ∧ ((ρ.state t).rings i).shared.consumed = ((ρ.state t).rings i).shared.published
          ∧ (ρ.state t).pool.drainedFrom i = ((ρ.state t).rings i).shared.published := by
  have hadds : ρ.LeadsTo (fun _ => True) (fun s => ∀ i, i < P.threadNum → (s.adds i).pc = .done) :=
    .all (fun _ _ _ _ _ h hstep => done_step hstep h) fun i hi =>
      FairRun.add_returns hsized hbatch hfair hi
  have hconsumed : ρ.LeadsTo (fun s => ∀ i, i < P.threadNum → (s.adds i).pc = .done)
      AllConsumed := by
    exact .all (D := fun i (s : Pipeline P) => (s.rings i).shared.consumed.length = P.addNum)
      (fun _ _ _ _ hs h hstep => consumed_full_step hs hstep h)
      fun i hi t hdone => FairRun.ring_empties hsized hbatch hfair hi t (hdone i hi)
  have hbg := (hconsumed.trans (FairRun.bg_returns hsized hfair)).and_kept
    (R := fun s => ∀ i, i < P.threadNum → (s.adds i).pc = .done)
    fun _ _ _ _ h hstep i hi => done_step hstep (h i hi)
  have hsink := (FairRun.sink_returns hfair).and_kept
    (R := fun s => s.bg.pc = .done ∧ ∀ i, i < P.threadNum → (s.adds i).pc = .done)
    fun _ _ _ _ h hstep => ⟨bg_done_step hstep h.1, fun i hi => done_step hstep (h.2 i hi)⟩
  obtain ⟨a, -, ha⟩ := hadds 0 trivial
  obtain ⟨b, -, hb⟩ := hbg a ⟨ha, ha⟩
  obtain ⟨t, -, hsinked, hdone, hadded⟩ := hsink b ⟨hb.1, hb⟩
  have hfinished : (ρ.state t).Finished := ⟨hadded, hdone, hsinked⟩
  have hreach := ρ.reachable t
  refine ⟨t, hfinished, fun u htu => ?_, fun i hi => ?_⟩
  · refine Run.keeps (P := fun s => s = ρ.state t) ?_ htu rfl
    rintro l s s' - rfl hstep
    cases (hfinished.step_eq_none l).symm.trans hstep
  · have hpublished := published_of_done hreach (hadded i hi)
    have hcollected := exited_collected hreach (.inr hdone) hi
    have hall := ((drains hreach).ordered i).eq_of_length (by rw [hcollected, hpublished])
    have hbetween := collected_of_between hreach (.inr (.inr (.inr hdone))) i
    refine ⟨hpublished, by rw [← hbetween, hall], ?_⟩
    rw [(drains hreach).collected, hall]

/-- A run of the tiny pipeline up to the end. -/
theorem pipeline_terminates_tiny :
    ∃ ρ : Run (pipeline .tiny), FairRun ρ ∧ ∃ t, (ρ.state t).Finished
      ∧ ((ρ.state t).rings 0).shared.published.length = 2 := by
  let turns := schedule [(.add 0 5#64, 27), (.bg, 32), (.sink, 1)]
  let s := (pipeline .tiny).replay turns Pipeline.tiny turns.length
  have hadd : (s.adds 0).pc = .done := by decide +kernel
  have hbg : s.bg.pc = .done := by decide +kernel
  have hsink : s.pool.sink = .done := by decide +kernel
  have hfinished : s.Finished := by
    refine ⟨fun i hi => ?_, hbg, hsink⟩
    obtain rfl : i = 0 := Nat.lt_one_iff.mp hi
    exact hadd
  have hfair : ∀ p, (Run.replay (pipeline .tiny) turns ⟨_, _, rfl⟩).Fair p :=
    Run.replay_fair _ hfinished.step_eq_none
  obtain ⟨t, ht, -, hrings⟩ := pipeline_terminates _ ⟨fun _ _ => hfair _, hfair _, hfair _⟩
    (fun _ _ => Nat.lt_succ_self 12) (Nat.succ_pos 999)
  exact ⟨_, ⟨fun _ _ => hfair _, hfair _, hfair _⟩, t, ht, (hrings 0 Nat.one_pos).1⟩

end LockFreeRingBuf
