import LockFreeRingBuf.PipelineBytes

/-!
# When the current buffer is handed off

`nItrWithNonEmptyBuf` is zero exactly while nothing was copied since the
last hand-off: the buffer taken in exchange is empty, and an iteration that
drained something leaves a record in the current buffer, also when the
buffer was exchanged in its midst.
-/

namespace LockFreeRingBuf

open Bytes Resumption Transition

variable {P : Params}

/-- Inside `while (count > 0)`. -/
@[simp] def BgPc.copying : BgPc → Bool
  | .copyTest => true
  | .avail => true
  | .fmtId => true
  | .timestamp => true
  | .add12 => true
  | .append => true
  | .swapFull => true
  | _ => false

/-- The buffer taken in exchange has no records. -/
theorem Pool.Moves.taken_empty {R : Type} {CacheBufQueueSize : Nat} {pool pool' : Pool R}
    {c : PoolCmd R} (hmove : pool.Moves CacheBufQueueSize (.writer c) pool')
    (h : pool.Conserved) (hc : c = .take ∨ c = .handOff) {x : Nat}
    (hx : pool'.pBuffer = some x) : pool'.records x = [] := by
  cases hmove with
  | take _ hcache | swap _ hcache =>
      obtain rfl := Option.some.inj hx
      exact (h.cached _ (by rw [hcache]; exact List.mem_append_right _ (.head _))).2
  | grow hb hcache =>
      obtain rfl := Option.some.inj hx
      simp only [Function.update_self]
  | store | add | append | exit => rcases hc with hc | hc <;> cases hc

namespace Pipeline

variable {s s' : Pipeline P}

/-- The current buffer, if there is one, holds no record. -/
def CurrentEmpty (s : Pipeline P) : Prop := ∀ b, s.pool.pBuffer = some b → s.pool.records b = []

structure HandsOff (s : Pipeline P) : Prop where
  counted : s.bg.uncounted = 0 → (s.bg.nItrWithNonEmptyBuf = 0 ↔ s.CurrentEmpty)
  filled : s.bg.uncounted ≠ 0 → s.CurrentEmpty → s.bg.pc.copying = true ∧ 0 < s.bg.count

namespace HandsOff

/-! ## One step -/

theorem congr (h : s.HandsOff) (hempty : s'.CurrentEmpty ↔ s.CurrentEmpty)
    (hn : s'.bg.nItrWithNonEmptyBuf = s.bg.nItrWithNonEmptyBuf)
    (hu : s'.bg.uncounted = s.bg.uncounted)
    (hcopy : s.bg.pc.copying = true → 0 < s.bg.count →
      s'.bg.pc.copying = true ∧ 0 < s'.bg.count) : s'.HandsOff where
  counted hzero := by
    rw [hn, hempty]
    exact h.counted (hu ▸ hzero)
  filled hne he := by
    obtain ⟨hc, hpos⟩ := h.filled (hu ▸ hne) (hempty.mp he)
    exact hcopy hc hpos

/-- After an exchange the buffer is empty and the count is zero. -/
theorem of_exchange {c : PoolCmd (Record P.argNum)} (hcons : s.pool.Conserved)
    (hpool : s.WriterSteps c s'.pool) (hc : c = .take ∨ c = .handOff)
    (hn : s'.bg.nItrWithNonEmptyBuf = 0)
    (hcopy : s'.bg.uncounted ≠ 0 → s'.bg.pc.copying = true ∧ 0 < s'.bg.count) : s'.HandsOff where
  counted _ := iff_of_true hn fun _ hb => (Pool.step_moves hpool).taken_empty hcons hc hb
  filled hne _ := hcopy hne

/-- A step on the pool that neither copies a record nor exchanges the buffer. -/
theorem currentEmpty_iff {c : PoolCmd (Record P.argNum)} (hpool : s.WriterSteps c s'.pool)
    (htake : c ≠ .take) (hoff : c ≠ .handOff) (happend : ∀ bs r, c ≠ .append bs r) :
    s'.CurrentEmpty ↔ s.CurrentEmpty := by
  unfold CurrentEmpty
  generalize hpool' : s'.pool = pool at hpool ⊢
  cases Pool.step_moves hpool with
  | take => exact absurd rfl htake
  | swap | grow => exact absurd rfl hoff
  | append => exact absurd rfl (happend _ _)
  | _ => exact Iff.rfl

/-- The end of an iteration that drained something. -/
theorem of_drained (h : s.HandsOff) (hpc : s.bg.pc = .iterEnd) (hne : s.bg.nPerItr ≠ 0)
    (hpool : s'.pool = s.pool) (hu : s'.bg.uncounted = 0)
    (hn : s'.bg.nItrWithNonEmptyBuf ≠ 0) : s'.HandsOff where
  counted _ := by
    refine iff_of_false hn ?_
    intro he
    have hempty : s.CurrentEmpty := by rwa [CurrentEmpty, hpool] at he
    have hcopy := (h.filled (by simpa only [RingBufBG.uncounted, hpc] using hne) hempty).1
    rw [hpc] at hcopy
    cases hcopy
  filled hne' _ := absurd hu hne'

theorem bg_step (h : s.HandsOff) (hreach : (pipeline P).Reachable s) (hmove : s.BgMoves s') :
    s'.HandsOff := by
  have hcons := conserved hreach
  have hcoupled := coupled hreach
  have hnonneg := uncounted_nonneg hreach
  have hgrows := uncounted_step hreach hmove
  have hsame := uncounted_eq hreach hmove
  have hat := hcoupled.bg
  cases hmove with
  | take hpc hpool =>
      have hzero : s.bg.nItrWithNonEmptyBuf = 0 := by
        refine (h.counted (by simp only [RingBufBG.uncounted, hpc])).mpr ?_
        intro b hb
        rw [(pBuffer_none_iff hreach).mpr hpc] at hb
        cases hb
      exact of_exchange hcons hpool (.inl rfl) hzero fun hne => absurd rfl hne
  | swapFull hpc hpool =>
      simp only [RingBufBG.At, hpc] at hat
      exact of_exchange hcons hpool (.inr rfl) rfl fun _ => ⟨rfl, hat.2⟩
  | flush hpc hpool => exact of_exchange hcons hpool (.inr rfl) rfl fun hne => absurd rfl hne
  | append hpc _ _ hpool =>
      cases Pool.step_moves hpool with
      | @append b _ _ hb =>
          refine ⟨fun hzero => ?_, fun _ he => ?_⟩
          · have hnext := hgrows (by simp [hpc])
            rw [if_pos hpc] at hnext
            omega
          · have hnil := he b hb
            simp only [Function.update_self] at hnil
            exact absurd hnil (List.concat_ne_nil _ _)
  | idleIter hpc hzero =>
      refine h.congr Iff.rfl rfl ?_ fun hc => by simp [hpc] at hc
      simpa only [RingBufBG.uncounted, hpc] using hzero.symm
  | drainIter hpc hne _ | flushIter hpc hne _ =>
      exact h.of_drained hpc hne rfl rfl (Nat.succ_ne_zero _)
  | release hpc hpos _ =>
      exact h.congr Iff.rfl rfl (hsame (by simp [hpc]) (by simp [hpc]))
        fun _ hc => absurd hc hpos
  | fmtId hpc _ _ hpool | timestamp hpc _ _ hpool | add12 hpc hpool =>
      exact h.congr (currentEmpty_iff hpool (by simp) (by simp) (by simp)) rfl
        (hsame (by simp [hpc]) (by simp [hpc])) fun _ hc => ⟨rfl, hc⟩
  | exitFlag hpc hpool =>
      exact h.congr (currentEmpty_iff hpool (by simp) (by simp) (by simp)) rfl
        (hsame (by simp [hpc]) (by simp [hpc])) fun hc => by simp [hpc] at hc
  | copy hpc _ | fits hpc | full hpc =>
      exact h.congr Iff.rfl rfl (hsame (by simp [hpc]) (by simp [hpc])) fun _ hc => ⟨rfl, hc⟩
  | _ =>
      -- No record is being copied before the step.
      have hpc := ‹s.bg.pc = _›
      exact h.congr Iff.rfl rfl (hsame (by simp [hpc]) (by simp [hpc]))
        fun hc => by simp [hpc] at hc

theorem add_step (h : s.HandsOff) {i : Nat} {tsc : BitVec 64} (hmove : s.AddMoves i tsc s') :
    s'.HandsOff := by
  obtain ⟨-, hpool, hbg⟩ := hmove.frame
  exact h.congr (by rw [CurrentEmpty, CurrentEmpty, hpool]) (by rw [hbg]) (by rw [hbg])
    fun hc hpos => by rw [hbg]; exact ⟨hc, hpos⟩

theorem sink_step (h : s.HandsOff) (hreach : (pipeline P).Reachable s)
    {pool : Pool (Record P.argNum)} (hmove : s.pool.Moves P.cacheBufQueueSize .sink pool) :
    ({ s with pool } : Pipeline P).HandsOff := by
  refine h.congr ?_ rfl rfl fun hc hpos => ⟨hc, hpos⟩
  simp only [CurrentEmpty, hmove.sink_pBuffer]
  refine forall_congr' ?_
  intro b
  refine imp_congr_right ?_
  intro hb
  rw [(hmove.sink_frame ((owned hreach).current_not_reset hb)).2]

end HandsOff

/-! ## Every reachable state -/

theorem handsOff (h : (pipeline P).Reachable s) : s.HandsOff := by
  refine h.invariant (I := HandsOff) ?_ ?_
  · rintro s ⟨arr, memory, rfl⟩
    refine ⟨fun _ => iff_of_true rfl fun b hb => ?_, fun hne => absurd rfl hne⟩
    cases hb
  · intro l u u' hreach hu hstep
    cases step_moves hstep with
    | add _ hmove => exact hu.add_step hmove
    | bg hmove => exact hu.bg_step hreach hmove
    | sink hpool => exact hu.sink_step hreach (Pool.step_moves hpool)

end Pipeline

end LockFreeRingBuf
