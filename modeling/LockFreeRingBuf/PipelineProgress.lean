import LockFreeRingBuf.RingProgress
import LockFreeRingBuf.PipelineLoop

/-!
# Each thread makes progress

`RingBufBG` is never stuck, and the visit to a ring, and with it the
iteration over all of them, ends after a bounded number of its own steps
(`Visiting`). A visit to a ring that was not empty copies a record out of
it (`Gaining`). A thread in `add` comes to its next record once its ring
has room (`Adding`), and `sinkBufBG` returns once the flag is set.
-/

namespace LockFreeRingBuf

open Bytes Resumption Transition

variable {P : Params}

/-- The step is one of `sinkBufBG`'s. -/
def PipelineLabel.isSink : PipelineLabel → Bool
  | .sink => true
  | _ => false

/-- The step is one of thread `i`'s in `add`. -/
def PipelineLabel.isAdd (i : Nat) : PipelineLabel → Bool
  | .add k _ => k == i
  | _ => false

namespace Pipeline

variable {s s' : Pipeline P}

/-! ## `RingBufBG` -/

/-- The copy loop, wherever a run of the pipeline is in it. -/
theorem looping (hsized : ∀ t i, (P.header t i).entrySize.toNat < P.sinkBufferSize)
    (h : (pipeline P).Reachable s) (hpc : s.bg.pc.copying = true) : s.Looping s.bg.n := by
  have hat := (coupled h).bg
  have hholds : s.bg.pc.holdsBatch = true := by
    cases hbg : s.bg.pc <;> simp [hbg] at hpc ⊢
  have hn := (coupled h).toInt_n hholds
  have hcopies : s.bg.Copies P s.ring
      ∧ 0 ≤ s.bg.count ∧ (s.bg.pc ≠ .copyTest → 0 < s.bg.count) := by
    cases hbg : s.bg.pc with
    | copyTest =>
        simp only [RingBufBG.At, hbg] at hat
        exact ⟨hat.1, hat.2, fun hne => absurd rfl hne⟩
    | avail | fmtId | timestamp | add12 | append | swapFull =>
        simp only [RingBufBG.At, hbg] at hat
        exact ⟨hat.1, Int.le_of_lt hat.2, fun _ => hat.2⟩
    | _ => simp [hbg] at hpc
  refine ⟨ring_reachable h, pool_reachable h, fun hnone => ?_, hpc, rfl, by omega,
    hcopies.1, hcopies.2, ?_⟩
  · have htake := (pBuffer_none_iff h).mp hnone
    simp [htake] at hpc
  · intro j _ _ e he
    obtain ⟨k, hk⟩ := (announces h).published _ _ (List.mem_of_getElem? he)
    rw [hk]
    exact hsized _ k

/-- `RingBufBG` can always take its turn until it has returned. -/
theorem bg_enabled (hsized : ∀ t i, (P.header t i).entrySize.toNat < P.sinkBufferSize)
    (h : (pipeline P).Reachable s) (hpc : s.bg.pc ≠ .done) : (Pipeline.step .bg s).isSome := by
  have hat := (coupled h).bg
  have hbuffer : s.bg.pc ≠ .take → ∃ b, s.pool.pBuffer = some b := fun htake =>
    Option.ne_none_iff_exists'.mp (mt (pBuffer_none_iff h).mp htake)
  cases hbg : s.bg.pc with
  | take =>
      have hnone := (pBuffer_none_iff h).mpr hbg
      have hcache := (owned h).takeReady hnone
      obtain ⟨b, hb⟩ := Option.ne_none_iff_exists'.mp (mt List.getLast?_eq_none_iff.mp hcache)
      simp [Pipeline.step, bgStep, hbg, fill, Pool.step, Pool.take, hnone, hb]
  | outer =>
      simp only [Pipeline.step, bgStep, hbg]
      split <;> rfl
  | forTest =>
      simp only [RingBufBG.At, hbg] at hat
      have hidle : (s.rings s.bg.index).consumer = .idle := hat
      simp only [Pipeline.step, bgStep, hbg]
      split
      · simp [consume, Config.consumerStep, hidle, Consumer.starts]
      · rfl
  | peeking =>
      simp only [RingBufBG.At, hbg] at hat
      obtain ⟨p, hp, -⟩ := hat
      have hstep : (s.ring.consumerStep (element P.argNum) P.ringBufSize .step).isSome :=
        Config.consumer_enabled (element P.argNum) P.ringBufSize hp
      simpa [Pipeline.step, bgStep, hbg, consume] using hstep
  | peekTest =>
      simp only [RingBufBG.At, hbg] at hat
      obtain ⟨p, hp⟩ := hat
      have hpeeked : (s.rings s.bg.index).consumer = .peeked s.bg.n p [] := hp
      simp only [Pipeline.step, bgStep, hbg]
      split
      · simp [consume, Config.consumerStep, hpeeked]
      · rfl
  | consuming =>
      simp only [RingBufBG.At, hbg] at hat
      obtain ⟨taken, p, hp⟩ := hat.running
      have hstep : (s.ring.consumerStep (element P.argNum) P.ringBufSize .step).isSome :=
        Config.consumer_enabled (element P.argNum) P.ringBufSize hp
      simpa [Pipeline.step, bgStep, hbg, consume] using hstep
  | tally => simp [Pipeline.step, bgStep, hbg]
  | iterEnd =>
      simp only [Pipeline.step, bgStep, hbg]
      split <;> rfl
  | flush =>
      obtain ⟨b, hb⟩ := hbuffer (by simp [hbg])
      simp [Pipeline.step, bgStep, hbg, fill, Pool.step, Pool.handOff, hb]
  | exitFlag => simp [Pipeline.step, bgStep, hbg, fill, Pool.step]
  | done => exact absurd hbg hpc
  | _ => exact (looping hsized h (by simp [hbg])).enabled

/-- `RingBufBG` is visiting a ring, and comes to the next one after at most `m`
more of its own steps. -/
def Visiting (m : Nat) (s : Pipeline P) : Prop :=
  match s.bg.pc with
  | .peeking => ∃ k, s.ring.ConsumerWithin (.peek (BitVec.ofNat 32 P.batchSizePop)) k
      ∧ k + (9 * P.batchSizePop + 7) ≤ m
  | .peekTest => 9 * P.batchSizePop + 6 ≤ m
  | .consuming => ∃ k, s.ring.ConsumerWithin (.consume s.bg.n) k ∧ k + 2 ≤ m
  | .tally => 1 ≤ m
  | pc => pc.copying = true ∧ s.stepsLeft + 5 ≤ m

theorem BgMoves.copying_index (hmove : s.BgMoves s') (hpc : s.bg.pc.copying = true) :
    s'.bg.index = s.bg.index := by
  cases hmove with
  | copy | release | fits | full | fmtId | timestamp | add12 | append | swapFull => rfl
  | _ => simp [‹s.bg.pc = _›] at hpc

namespace Visiting

variable {m : Nat}

theorem of_copying (hpc : s.bg.pc.copying = true) (hm : s.stepsLeft + 5 ≤ m) : s.Visiting m := by
  unfold Visiting
  cases hbg : s.bg.pc <;> simp [hbg] at hpc ⊢ <;> exact hm

theorem stepsLeft_le (h : s.Visiting m) (hpc : s.bg.pc.copying = true) : s.stepsLeft + 5 ≤ m := by
  unfold Visiting at h
  cases hbg : s.bg.pc <;> simp [hbg] at hpc h ⊢ <;> exact h

/-- A visit is under way between the call of `peek` and `nPerItr += n`. -/
theorem of_atRing (h : (pipeline P).Reachable s) (hpc : s.bg.pc.atRing = true) :
    s.Visiting (9 * P.batchSizePop + 10) := by
  have hat := (coupled h).bg
  have hcalls := inCalls (ring_reachable h s.bg.index)
  have hbatch := (coupled h).batch
  have hn := (coupled h).toInt_n
  cases hbg : s.bg.pc with
  | peeking =>
      simp only [RingBufBG.At, hbg] at hat
      obtain ⟨p, hp, -⟩ := hat
      obtain ⟨k, hk, hle⟩ := hcalls.consumer hp
      simp only [ConsumerCall.accesses] at hle
      simp only [Visiting, hbg]
      exact ⟨k, hk, by omega⟩
  | consuming =>
      simp only [RingBufBG.At, hbg] at hat
      obtain ⟨taken, p, hp⟩ := hat.running
      obtain ⟨k, hk, hle⟩ := hcalls.consumer hp
      simp only [ConsumerCall.accesses] at hle
      simp only [Visiting, hbg]
      exact ⟨k, hk, by omega⟩
  | peekTest | tally =>
      simp only [Visiting, hbg]
      omega
  | copyTest | avail | fmtId | timestamp | add12 | append | swapFull =>
      -- `count` is at most `n`, and `n` at most what `peek` was asked for.
      simp only [RingBufBG.At, hbg] at hat
      have hcount := hat.1.count_le
      have hn := hn (by simp [hbg])
      have hbatch := hbatch (by simp [hbg])
      refine of_copying (by simp [hbg]) ?_
      have hleft : s.stepsLeft ≤ 9 * s.bg.count.toNat := Nat.sub_le _ _
      omega
  | _ => simp [hbg] at hpc

/-- Out of the copy loop, into `consume`. -/
theorem release_step (h' : (pipeline P).Reachable s') (hm : 5 ≤ m) (hmove : s.BgMoves s')
    (hpc : s.bg.pc.copying = true) (hpc' : ¬ s'.bg.pc.copying = true) :
    ∃ k, s'.Visiting k ∧ s'.bg.index = s.bg.index ∧ k + 1 ≤ m := by
  cases hmove with
  | @release r hpc'' hpos hr =>
      have hcalls := inCalls (ring_reachable h' s.bg.index)
      have hat := (coupled h').bg
      obtain ⟨taken, p, hp⟩ := Consuming.running hat
      obtain ⟨k, hk, hle⟩ := hcalls.consumer hp
      refine ⟨k + 2, ⟨k, hk, Nat.le_refl _⟩, rfl, ?_⟩
      simp only [ConsumerCall.accesses] at hle
      omega
  | copy | fits | full | fmtId | timestamp | add12 | append | swapFull => exact absurd rfl hpc'
  | _ => simp [‹s.bg.pc = _›] at hpc

theorem bg_step (hsized : ∀ t i, (P.header t i).entrySize.toNat < P.sinkBufferSize)
    (h : (pipeline P).Reachable s) (h' : (pipeline P).Reachable s') (hv : s.Visiting m)
    (hmove : s.BgMoves s') :
    (s'.bg.pc = .forTest ∧ s'.bg.index = s.bg.index + 1)
      ∨ ∃ k, s'.Visiting k ∧ s'.bg.index = s.bg.index ∧ k + 1 ≤ m := by
  by_cases hpc : s.bg.pc.copying = true
  · right
    have hleft := hv.stepsLeft_le hpc
    by_cases hpc' : s'.bg.pc.copying = true
    · obtain ⟨-, -, hlt⟩ := (looping hsized h hpc).bg_step hmove hpc'
      exact ⟨_, of_copying hpc' (Nat.le_refl _), hmove.copying_index hpc, by omega⟩
    · exact release_step h' (by omega) hmove hpc hpc'
  · cases hmove with
    | peeking hbg hr hnot =>
        right
        simp only [Visiting, hbg] at hv
        obtain ⟨k, hk, hle⟩ := hv
        rcases hk.consumer_step (Config.consumerStep_moves _ _ hr) with hleft | ⟨k', hk', hlt⟩
        · have hat := (coupled h').bg
          simp only [RingBufBG.At, hbg, ring, setRing, Function.update_self] at hat
          obtain ⟨p, hp, -⟩ := hat
          exact absurd hp (hleft _ _)
        · refine ⟨k' + (9 * P.batchSizePop + 7), ?_, rfl, by omega⟩
          simp only [Visiting, hbg, ring, setRing, Function.update_self]
          exact ⟨k', hk', Nat.le_refl _⟩
    | peeked hbg _ _ =>
        simp only [Visiting, hbg] at hv
        obtain ⟨k, -, hle⟩ := hv
        exact .inr ⟨_, Nat.le_refl _, rfl, by omega⟩
    | skip => exact .inl ⟨rfl, rfl⟩
    | batch hbg _ =>
        simp only [Visiting, hbg] at hv
        have hbatch := (coupled h).batch (by simp [hbg])
        have hn := (coupled h).toInt_n (by simp [hbg])
        refine .inr ⟨_, of_copying rfl (Nat.le_refl _), rfl, ?_⟩
        simp only [stepsLeft]
        omega
    | consuming hbg hr hnot =>
        right
        simp only [Visiting, hbg] at hv
        obtain ⟨k, hk, hle⟩ := hv
        rcases hk.consumer_step (Config.consumerStep_moves _ _ hr) with hleft | ⟨k', hk', hlt⟩
        · have hat := (coupled h').bg
          simp only [RingBufBG.At, hbg, ring, setRing, Function.update_self] at hat
          obtain ⟨taken, p, hp⟩ := hat.running
          exact absurd hp (hleft _ _)
        · refine ⟨k' + 2, ?_, rfl, by omega⟩
          simp only [Visiting, hbg, ring, setRing, Function.update_self]
          exact ⟨k', hk', Nat.le_refl _⟩
    | consumed hbg _ _ =>
        simp only [Visiting, hbg] at hv
        obtain ⟨k, -, hle⟩ := hv
        exact .inr ⟨1, Nat.le_refl _, rfl, by omega⟩
    | tally => exact .inl ⟨rfl, rfl⟩
    | _ => simp [Visiting, ‹s.bg.pc = _›] at hv hpc

/-- The other threads leave the visit where it is. -/
theorem congr (hv : s.Visiting m) (hbg : s'.bg = s.bg) (hring : s'.ring.consumer = s.ring.consumer)
    (hleft : s.bg.pc.copying = true → s'.stepsLeft ≤ s.stepsLeft) : s'.Visiting m := by
  unfold Visiting at hv ⊢
  rw [hbg]
  cases hpc : s.bg.pc with
  | peeking | consuming =>
      simp only [hpc] at hv ⊢
      obtain ⟨k, ⟨taken, p, hp, hends⟩, hle⟩ := hv
      exact ⟨k, ⟨taken, p, hring.trans hp, hends⟩, hle⟩
  | peekTest | tally => simpa only [hpc] using hv
  | _ =>
      simp only [hpc] at hv ⊢
      refine ⟨hv.1, ?_⟩
      have hle := hleft (by rw [hpc]; exact hv.1)
      omega

theorem step (hsized : ∀ t i, (P.header t i).entrySize.toNat < P.sinkBufferSize)
    (h : (pipeline P).Reachable s) (hv : s.Visiting m) {l : PipelineLabel}
    (hstep : Pipeline.step l s = some s') :
    (s'.bg.pc = .forTest ∧ s'.bg.index = s.bg.index + 1)
      ∨ ∃ k, s'.Visiting k ∧ s'.bg.index = s.bg.index ∧ k + (if l.isBg then 1 else 0) ≤ m := by
  have hreach : (pipeline P).Reachable s' := h.step hstep
  have hloop : s.bg.pc.copying = true → s'.bg = s.bg → s'.stepsLeft ≤ s.stepsLeft := by
    intro hpc hbg
    have hleft := ((looping hsized h hpc).step hstep (by rw [hbg]; exact hpc)).2.2
    omega
  cases step_moves hstep with
  | bg hmove => exact hv.bg_step hsized h hreach hmove
  | add _ hmove =>
      have hbg := hmove.frame.2.2
      refine .inr ⟨m, hv.congr hbg ?_ fun hpc => hloop hpc hbg, by rw [hbg], Nat.le_refl _⟩
      rw [ring, hbg]
      exact (hmove.ring_frame _).1
  | sink hpool => exact .inr ⟨m, hv.congr rfl rfl fun hpc => hloop hpc rfl, rfl, Nat.le_refl _⟩

end Visiting

/-! ## What a visit brings -/

theorem step_reachable (h : (pipeline P).Reachable s) {l : PipelineLabel}
    (hstep : Pipeline.step l s = some s') : (pipeline P).Reachable s' := h.step hstep

theorem setRing_consumed {c : ConsumerCmd (UncompressedEntry P.argNum)}
    {r : Config (UncompressedEntry P.argNum)} (hr : s.ConsumerSteps c r) (i : Nat) :
    (s.rings i).shared.consumed <+: (s.setRing r i).shared.consumed := by
  by_cases hi : i = s.bg.index
  · subst hi
    rw [setRing, Function.update_self]
    exact (Config.consumerStep_moves _ _ hr).consumed_grows
  · rw [setRing, Function.update_of_ne hi]

/-- What is consumed stays consumed. -/
theorem consumed_mono {l : PipelineLabel} (hstep : Pipeline.step l s = some s') (i : Nat) :
    (s.rings i).shared.consumed.length ≤ (s'.rings i).shared.consumed.length := by
  cases step_moves hstep with
  | add _ hmove => exact Nat.le_of_eq (congrArg _ (hmove.ring_frame i).2.1.symm)
  | sink => exact Nat.le_refl _
  | bg hmove =>
      rcases hmove.rings_cases with hrings | ⟨c, r, hr, hrings⟩
      · rw [hrings]
      · rw [hrings]
        exact (setRing_consumed hr i).length_le

/-- What is copied out stays copied out. -/
theorem collected_mono (h : (pipeline P).Reachable s) {l : PipelineLabel}
    (hstep : Pipeline.step l s = some s') (i : Nat) :
    (s.rings i).collected.length ≤ (s'.rings i).collected.length := by
  cases step_moves hstep with
  | add _ hmove => exact Nat.le_of_eq (congrArg _ (hmove.frame.1 i).1.symm)
  | sink => exact Nat.le_refl _
  | bg hmove =>
      by_cases hpc : s.bg.pc = .append
      · obtain ⟨e, -, -, hrings, -⟩ := (coupled h).append_step hmove hpc
        rw [hrings, List.length_append]
        exact Nat.le_add_right _ _
      · rw [((coupled h).collected_step h hmove hpc).1]

theorem published_mono {l : PipelineLabel} (hstep : Pipeline.step l s = some s') (i : Nat) :
    (s.rings i).shared.published.length ≤ (s'.rings i).shared.published.length := by
  cases step_moves hstep with
  | add _ hmove => exact (hmove.ring_frame i).2.2.length_le
  | sink => exact Nat.le_refl _
  | bg hmove => exact Nat.le_of_eq (congrArg _ (hmove.ring_frame i).2.symm)

/-- `RingBufBG` is visiting ring `i` and has found enough records there to copy out
the first `d`, within a batch. -/
def Gaining (i d : Nat) (s : Pipeline P) : Prop :=
  s.bg.index = i ∧ d ≤ (s.rings i).shared.consumed.length + P.batchSizePop
    ∧ match s.bg.pc with
      | .peeking => (s.rings i).Finds (element P.argNum) P.ringBufSize
          (BitVec.ofNat 32 P.batchSizePop) (d - (s.rings i).shared.consumed.length)
      | pc => (pc = .peekTest ∨ pc.copying = true)
          ∧ d ≤ (s.rings i).shared.consumed.length + s.bg.n.toNat

namespace Gaining

variable {i d : Nat}

theorem atRing (hg : s.Gaining i d) : s.bg.pc.atRing = true := by
  obtain ⟨-, -, hat⟩ := hg
  cases hpc : s.bg.pc <;> simp [hpc] at hat ⊢

theorem not_forTest (hg : s.Gaining i d) : s.bg.pc ≠ .forTest := by
  intro hpc
  have hring := hg.atRing
  simp [hpc] at hring

theorem of_found (hindex : s.bg.index = i)
    (hbatch : d ≤ (s.rings i).shared.consumed.length + P.batchSizePop)
    (hpc : s.bg.pc = .peekTest ∨ s.bg.pc.copying = true)
    (hd : d ≤ (s.rings i).shared.consumed.length + s.bg.n.toNat) : s.Gaining i d := by
  refine ⟨hindex, hbatch, ?_⟩
  cases hbg : s.bg.pc <;> simp [hbg] at hpc ⊢ <;> exact hd

theorem found (hg : s.Gaining i d) (hpc : s.bg.pc ≠ .peeking) :
    (s.bg.pc = .peekTest ∨ s.bg.pc.copying = true)
      ∧ d ≤ (s.rings i).shared.consumed.length + s.bg.n.toNat := by
  obtain ⟨-, -, hat⟩ := hg
  cases hbg : s.bg.pc <;> simp [hbg] at hpc hat ⊢ <;> exact hat

/-- The loop is left with the whole batch taken. -/
theorem release_step (h : (pipeline P).Reachable s) (hg : s.Gaining i d) (hmove : s.BgMoves s')
    (hpc : s.bg.pc = .copyTest) (hcount : ¬ 0 < s.bg.count) :
    d ≤ (s'.rings i).collected.length := by
  obtain ⟨-, hd⟩ := hg.found (by simp [hpc])
  obtain ⟨rfl, -, -⟩ := hg
  have hat := (coupled h).bg
  simp only [RingBufBG.At, hpc] at hat
  obtain ⟨⟨p, taken, hpeeked, hlen⟩, hnonneg⟩ := hat
  have hnat := (coupled h).toInt_n (by simp [hpc])
  rw [((coupled h).collected_step h hmove (by simp [hpc])).1, Config.collected, hpeeked,
    Consumer.taken, List.length_append]
  omega

/-- An empty batch is found only where nothing was. -/
theorem skip_step (h : (pipeline P).Reachable s) (hg : s.Gaining i d) (hmove : s.BgMoves s')
    (hpc : s.bg.pc = .peekTest) (hzero : s.bg.n = 0#32) :
    d ≤ (s'.rings i).collected.length := by
  obtain ⟨-, hd⟩ := hg.found (by simp [hpc])
  rw [hzero, BitVec.toNat_ofNat, Nat.zero_mod] at hd
  rw [((coupled h).collected_step h hmove (by simp [hpc])).1, Config.collected, List.length_append]
  omega

theorem bg_step (h : (pipeline P).Reachable s) (hg : s.Gaining i d) (hmove : s.BgMoves s')
    (hle : (s.rings i).shared.consumed.length ≤ (s'.rings i).shared.consumed.length) :
    d ≤ (s'.rings i).collected.length ∨ s'.Gaining i d := by
  have hbatch := hg.2.1
  have hbatch' := Nat.le_trans hbatch (Nat.add_le_add_right hle P.batchSizePop)
  have hcount := counters_reachable (ring_reachable h i)
  by_cases hpc : s.bg.pc = .peeking
  · have hmax : d - (s.rings i).shared.consumed.length
        ≤ (BitVec.ofNat 32 P.batchSizePop).toNat := by
      have hlt := P.batch_lt
      rw [BitVec.toNat_ofNat, Nat.mod_eq_of_lt (by omega)]
      omega
    obtain ⟨rfl, -, hfinds⟩ := hg
    simp only [hpc] at hfinds
    right
    cases hmove with
    | peeking _ hr hnot =>
        rcases hfinds.consumer_step hmax hcount (Config.consumerStep_moves _ _ hr) with
          hnext | ⟨n, j, hpeeked, -⟩
        · refine ⟨rfl, hbatch', ?_⟩
          simp only [hpc, setRing, Function.update_self] at hle ⊢
          exact hnext.mono (Nat.sub_le_sub_left hle d)
        · exact absurd hpeeked (hnot n j [])
    | peeked _ hr hpeeked =>
        rcases hfinds.consumer_step hmax hcount (Config.consumerStep_moves _ _ hr) with
          hnext | ⟨n, j, hpeeked', hn⟩
        · obtain ⟨taken, p, hp⟩ := hnext.running
          cases hp.symm.trans hpeeked
        · obtain ⟨rfl, -, -⟩ := Consumer.peeked.inj (hpeeked.symm.trans hpeeked')
          exact of_found rfl hbatch' (.inl rfl)
            (Nat.le_trans (Nat.sub_le_iff_le_add'.mp hn) (Nat.add_le_add_right hle _))
    | _ => cases hpc.symm.trans ‹s.bg.pc = _›
  · obtain ⟨hat, hd⟩ := hg.found hpc
    cases hmove with
    | skip hpc' hzero hr => exact .inl (hg.skip_step h (.skip hpc' hzero hr) hpc' hzero)
    | release hpc' hzero hr => exact .inl (hg.release_step h (.release hpc' hzero hr) hpc' hzero)
    | batch | copy | fits | full | fmtId | timestamp | add12 | append | swapFull =>
        exact .inr (of_found hg.1 hbatch' (.inr rfl) (Nat.le_trans hd (Nat.add_le_add_right hle _)))
    | peeking hpc' | peeked hpc' => exact absurd hpc' hpc
    | _ => simp [‹s.bg.pc = _›] at hat

theorem step (h : (pipeline P).Reachable s) (hg : s.Gaining i d) {l : PipelineLabel}
    (hstep : Pipeline.step l s = some s') :
    d ≤ (s'.rings i).collected.length ∨ s'.Gaining i d := by
  have hcount := counters_reachable (ring_reachable h i)
  have hcount' := counters_reachable (ring_reachable (step_reachable h hstep) i)
  cases step_moves hstep with
  | bg hmove => exact hg.bg_step h hmove (consumed_mono hstep i)
  | sink hpool => exact .inr hg
  | add _ hmove =>
      right
      obtain ⟨hcons, hconsumed, hpublished⟩ := hmove.ring_frame i
      obtain ⟨hindex, hbatch, hat⟩ := hg
      have hbg := hmove.frame.2.2
      unfold Gaining
      rw [hbg, hconsumed]
      refine ⟨hindex, hbatch, ?_⟩
      cases hpc : s.bg.pc with
      | peeking =>
          simp only [hpc] at hat ⊢
          exact hat.congr hcons hconsumed hpublished.length_le
            (by rw [hcount'.out_eq, hcount.out_eq, hconsumed])
      | _ => simpa only [hpc] using hat

end Gaining

theorem BgMoves.adds_eq (hmove : s.BgMoves s') : s'.adds = s.adds := by
  cases hmove <;> rfl

/-- A thread leaves the rings and the variables of the others alone. -/
theorem AddMoves.elsewhere {k i : Nat} {tsc : BitVec 64} (hmove : s.AddMoves k tsc s')
    (hi : i ≠ k) : s'.adds i = s.adds i ∧ s'.rings i = s.rings i := by
  cases hmove <;> simp only [Function.update_of_ne hi, and_self]

/-! ## A thread in `add` -/

/-- Thread `i` can take its turn until it has returned. -/
theorem add_enabled (h : (pipeline P).Reachable s) {i : Nat} (hi : i < P.threadNum)
    (hpc : (s.adds i).pc ≠ .done) (tsc : BitVec 64) : (Pipeline.step (.add i tsc) s).isSome := by
  have hat := (coupled h).adds i
  simp only [Pipeline.step, if_pos hi, addStep]
  cases ha : (s.adds i).pc with
  | test => rfl
  | rdtsc =>
      simp only [AddThread.At, ha] at hat
      simp [produce, Config.producerStep, hat.1, Producer.offers]
  | reserving =>
      simp only [AddThread.At, ha] at hat
      obtain ⟨⟨p, hp, -⟩, -⟩ := hat
      have hstep : ((s.rings i).producerStep (element P.argNum) P.ringBufSize .step).isSome :=
        Config.producer_enabled (element P.argNum) P.ringBufSize hp
      simpa [produce] using hstep
  | entrySize =>
      simp only [AddThread.At, ha] at hat
      obtain ⟨⟨slot, v, hp⟩, -⟩ := hat
      simp [produce, Config.producerStep, hp]
  | fmtId | timestamp =>
      simp only [AddThread.At, ha] at hat
      obtain ⟨⟨slot, v, hp, -⟩, -⟩ := hat
      simp [produce, Config.producerStep, hp]
  | finish =>
      simp only [AddThread.At, ha] at hat
      obtain ⟨⟨slot, v, hp, -⟩, -⟩ := hat
      simp [produce, Config.producerStep, hp, Producer.offers]
  | finishing =>
      simp only [AddThread.At, ha] at hat
      obtain ⟨⟨offer, p, hp, -⟩, -⟩ := hat
      have hstep : ((s.rings i).producerStep (element P.argNum) P.ringBufSize .step).isSome :=
        Config.producer_enabled (element P.argNum) P.ringBufSize hp
      simpa [produce] using hstep
  | done => exact absurd ha hpc

/-- Thread `i` comes to its next record, or returns, after at most `m` more of its
own steps: once it holds a slot for certain, and before that if there is room. -/
def Adding (i m : Nat) (s : Pipeline P) : Prop :=
  match (s.adds i).pc with
  | .test => (s.rings i).Roomy P.ringBufSize ∧ 13 ≤ m
  | .rdtsc => (s.rings i).Roomy P.ringBufSize ∧ 12 ≤ m
  | .reserving => ∃ passed k,
      (s.rings i).InPass (element P.argNum) P.ringBufSize .reserve1 passed k
        ∧ k ≤ (ProducerCall.reserve1 : ProducerCall (UncompressedEntry P.argNum)).turns
        ∧ (passed = true ∨ (s.rings i).Roomy P.ringBufSize) ∧ k + 8 ≤ m
  | .entrySize => 7 ≤ m
  | .fmtId => 6 ≤ m
  | .timestamp => 5 ≤ m
  | .finish => 4 ≤ m
  | .finishing => ∃ k, (s.rings i).InPass (element P.argNum) P.ringBufSize .finish1 true k
      ∧ k ≤ 2 ∧ k + 1 ≤ m
  | .done => False

namespace Adding

variable {i m : Nat}

/-- Only a full ring holds a thread up. -/
theorem of_room (h : (pipeline P).Reachable s) (hpc : (s.adds i).pc ≠ .done)
    (hroom : (s.rings i).Roomy P.ringBufSize) : ∃ m, s.Adding i m := by
  have hat := (coupled h).adds i
  have hcalls := inCalls (ring_reachable h i)
  unfold Adding
  cases ha : (s.adds i).pc with
  | reserving =>
      simp only [AddThread.At, ha] at hat
      obtain ⟨⟨p, hp, -⟩, -⟩ := hat
      obtain ⟨passed, k, hk, hle⟩ := hcalls.producer hp
      exact ⟨_, passed, k, hk, hle, .inr hroom, Nat.le_refl _⟩
  | finishing =>
      simp only [AddThread.At, ha] at hat
      obtain ⟨⟨offer, p, hp, -⟩, -⟩ := hat
      obtain ⟨passed, k, hk, hle⟩ := hcalls.producer hp
      obtain rfl := hk.passed_of_not_spins rfl
      exact ⟨_, k, hk, hle, Nat.le_refl _⟩
  | test | rdtsc => exact ⟨_, hroom, Nat.le_refl _⟩
  | done => exact absurd ha hpc
  | _ => exact ⟨_, Nat.le_refl _⟩

/-- What the other threads do is at most to make room. -/
theorem congr (ha : s.Adding i m) (hadds : s'.adds i = s.adds i)
    (hp : (s'.rings i).producer = (s.rings i).producer)
    (hin : (s'.rings i).shared.in_ = (s.rings i).shared.in_)
    (hroom : (s.rings i).Roomy P.ringBufSize → (s'.rings i).Roomy P.ringBufSize) :
    s'.Adding i m := by
  unfold Adding at ha ⊢
  rw [hadds]
  cases hpc : (s.adds i).pc with
  | test | rdtsc =>
      simp only [hpc] at ha ⊢
      exact ⟨hroom ha.1, ha.2⟩
  | reserving =>
      simp only [hpc] at ha ⊢
      obtain ⟨passed, k, hk, hle, hpass, hm⟩ := ha
      exact ⟨passed, k, hk.congr hp hin, hle, hpass.imp_right hroom, hm⟩
  | finishing =>
      simp only [hpc] at ha ⊢
      obtain ⟨k, hk, hle, hm⟩ := ha
      exact ⟨k, hk.congr hp hin, hle, hm⟩
  | done => simp only [hpc] at ha
  | _ => simpa only [hpc] using ha

/-- A call of `reserve_1` or `finish_1` begins. -/
theorem begins {r : Config (UncompressedEntry P.argNum)} {k : Nat}
    {c : ProducerCall (UncompressedEntry P.argNum)} (hr : s.ProducerSteps k (.call c) r) :
    ∃ passed, r.InPass (element P.argNum) P.ringBufSize c passed c.accesses := by
  cases Config.producerStep_moves _ _ hr with
  | call hoffer => exact Config.InPass.begin rfl

theorem add_step (h : (pipeline P).Reachable s) (h' : (pipeline P).Reachable s')
    (ha : s.Adding i m) {tsc : BitVec 64} (hmove : s.AddMoves i tsc s') :
    ((s'.adds i).pc = .done ∨ (s.adds i).i < (s'.adds i).i)
      ∨ ∃ k, s'.Adding i k ∧ (s'.adds i).i = (s.adds i).i ∧ k + 1 ≤ m := by
  have hcount := counters_reachable (ring_reachable h i)
  have hat := (coupled h').adds i
  unfold Adding at ha
  cases hmove with
  | stop => exact .inl (.inl (by simp only [Function.update_self]))
  | enter hpc _ =>
      simp only [hpc] at ha
      refine .inr ⟨12, ?_, by simp only [Function.update_self], ha.2⟩
      simp only [Adding, Function.update_self]
      exact ⟨ha.1, Nat.le_refl _⟩
  | @reserve r hpc hr =>
      simp only [hpc] at ha
      obtain ⟨passed, hpass⟩ := begins hr
      have hroom : r.Roomy P.ringBufSize := by
        cases Config.producerStep_moves _ _ hr with
        | call => exact ha.1
      refine .inr ⟨11, ?_, by simp only [Function.update_self], ha.2⟩
      simp only [Adding, Function.update_self]
      exact ⟨passed, 3, hpass, Nat.le_add_right _ _, .inr hroom, Nat.le_refl _⟩
  | @reserving r hpc hr hnot =>
      simp only [hpc] at ha
      obtain ⟨passed, k, hk, hle, hpass, hm⟩ := ha
      simp only [AddThread.At, hpc, Function.update_self] at hat
      obtain ⟨⟨p, hp, -⟩, -⟩ := hat
      rcases hk.producer_step hle hcount (Config.producerStep_moves _ _ hr) with
        hleft | ⟨passed', k', hk', hle', hdown⟩
      · exact absurd hp (hleft _ _)
      · obtain ⟨hlt, hpass'⟩ := hdown hpass
        refine .inr ⟨k' + 8, ?_, rfl, by omega⟩
        simp only [Adding, hpc, Function.update_self]
        exact ⟨passed', k', hk', hle', hpass', Nat.le_refl _⟩
  | reserved hpc _ _ =>
      simp only [hpc] at ha
      obtain ⟨-, k, -, -, -, hm⟩ := ha
      refine .inr ⟨7, ?_, by simp only [Function.update_self], by omega⟩
      simp only [Adding, Function.update_self, Nat.le_refl]
  | entrySize hpc _ | fmtId hpc _ | timestamp hpc _ =>
      simp only [hpc] at ha
      refine .inr ⟨_, ?_, by simp only [Function.update_self], ha⟩
      simp only [Adding, Function.update_self, Nat.le_refl]
  | @finish r hpc hr =>
      simp only [hpc] at ha
      obtain ⟨passed, hpass⟩ := begins hr
      obtain rfl := hpass.passed_of_not_spins rfl
      refine .inr ⟨3, ?_, by simp only [Function.update_self], ha⟩
      simp only [Adding, Function.update_self]
      exact ⟨2, hpass, Nat.le_refl _, Nat.le_refl _⟩
  | @finishing r hpc hr hnot =>
      simp only [hpc] at ha
      obtain ⟨k, hk, hle, hm⟩ := ha
      simp only [AddThread.At, hpc, Function.update_self] at hat
      obtain ⟨⟨offer, p, hp, -⟩, -⟩ := hat
      rcases hk.producer_step hle hcount (Config.producerStep_moves _ _ hr) with
        hleft | ⟨passed', k', hk', hle', hdown⟩
      · exact absurd hp (hleft _ _)
      · obtain ⟨hlt, -⟩ := hdown (.inl rfl)
        obtain rfl := hk'.passed_of_not_spins rfl
        refine .inr ⟨k' + 1, ?_, rfl, by omega⟩
        simp only [Adding, hpc, Function.update_self]
        exact ⟨k', hk', hle', Nat.le_refl _⟩
  | finished hpc =>
      simp only [Function.update_self]
      exact .inl (.inr (Nat.lt_succ_self _))

theorem step (h : (pipeline P).Reachable s) (ha : s.Adding i m) {l : PipelineLabel}
    (hstep : Pipeline.step l s = some s') :
    ((s'.adds i).pc = .done ∨ (s.adds i).i < (s'.adds i).i)
      ∨ ∃ k, s'.Adding i k ∧ (s'.adds i).i = (s.adds i).i
        ∧ k + (if l.isAdd i then 1 else 0) ≤ m := by
  have hreach := step_reachable h hstep
  have hcount := counters_reachable (ring_reachable h i)
  have hcount' := counters_reachable (ring_reachable hreach i)
  have hconsumed := consumed_mono hstep i
  cases step_moves hstep with
  | sink => exact .inr ⟨m, ha, rfl, Nat.le_refl _⟩
  | bg hmove =>
      obtain ⟨hp, hpub⟩ := hmove.ring_frame i
      have hadds := hmove.adds_eq
      refine .inr ⟨m, ha.congr (by rw [hadds]) hp ?_ fun hroom => ?_, by rw [hadds], Nat.le_refl _⟩
      · rw [hcount'.in_eq, hcount.in_eq, hpub]
      · unfold Config.Roomy at hroom ⊢
        rw [hpub]
        omega
  | @add k tsc _ hk hmove =>
      by_cases hik : k = i
      · subst hik
        simp only [PipelineLabel.isAdd, beq_self_eq_true, if_true]
        exact ha.add_step h hreach hmove
      · obtain ⟨hadds, hrings⟩ := hmove.elsewhere (Ne.symm hik)
        have hlabel : (PipelineLabel.add k tsc).isAdd i = false := by
          simp [PipelineLabel.isAdd, hik]
        refine .inr ⟨m, ha.congr hadds (by rw [hrings]) (by rw [hrings]) (by rw [hrings]; exact id),
          by rw [hadds], ?_⟩
        rw [hlabel]
        exact Nat.le_refl _

end Adding

/-! ## `sinkBufBG` -/

/-- `sinkBufBG` can always take its turn until it has returned. -/
theorem sink_enabled (h : (pipeline P).Reachable s) (hpc : s.pool.sink ≠ .done) :
    (Pipeline.step .sink s).isSome := by
  have hready := (owned h).popReady
  simp only [Pipeline.step, Pool.sinkStep, Option.isSome_map]
  cases hsink : s.pool.sink with
  | pop =>
      obtain ⟨b, rest, hqueue⟩ := List.exists_cons_of_ne_nil (hready hsink)
      simp [hqueue]
  | done => exact absurd hsink hpc
  | _ => rfl

/-- The steps of `sinkBufBG` until it returns once the flag is set, at most. -/
def sinkLeft (s : Pipeline P) : Nat :=
  match s.pool.sink with
  | .exitTest => 1
  | .sizeTest => 7
  | .pop => 6
  | .write _ => 5
  | .reset _ => 4
  | .cacheTest _ => 3
  | .delete _ => 2
  | .pushBack _ => 2
  | .done => 0

theorem sinkLeft_step {l : PipelineLabel} (hstep : Pipeline.step l s = some s')
    (hflag : s.pool.sinkBufBGExit = true) :
    s'.pool.sinkBufBGExit = true
      ∧ s'.sinkLeft + (if l.isSink then 1 else 0) ≤ s.sinkLeft := by
  unfold sinkLeft
  cases step_moves hstep with
  | add _ hmove =>
      rw [hmove.frame.2.1]
      exact ⟨hflag, Nat.le_refl _⟩
  | bg hmove =>
      rcases hmove.pool_cases with ⟨-, hsame⟩ | ⟨c, hpool, -⟩
      · rw [hsame]
        exact ⟨hflag, Nat.le_refl _⟩
      · generalize s'.pool = pool at hpool ⊢
        cases Pool.step_moves hpool with
        | exit => exact ⟨rfl, Nat.le_refl _⟩
        | _ => exact ⟨hflag, Nat.le_refl _⟩
  | sink hpool =>
      cases Pool.step_moves hpool with
      | exitTest hsink => simp [hsink, hflag, PipelineLabel.isSink]
      | sizeTest hsink =>
          by_cases hqueue : s.pool.sinkBufQueue.length > 0 <;>
            simp [hsink, hflag, hqueue, PipelineLabel.isSink]
      | cacheTest hsink =>
          by_cases hcache : s.pool.cacheBufQueue.length ≥ P.cacheBufQueueSize <;>
            simp [hsink, hflag, hcache, PipelineLabel.isSink]
      | pop hsink | write hsink | reset hsink | delete hsink | pushBack hsink =>
          refine ⟨hflag, ?_⟩
          simp [hsink, PipelineLabel.isSink]

end Pipeline

end LockFreeRingBuf
