import LockFreeRingBuf.PipelineProgress

/-!
# How long a record waits in its ring

`RingBufBG` comes back to each ring within a bounded number of its own
steps, and copies out what it finds there, up to a batch. So a record that
is published is copied out within a number of steps that depends on how
many records stand before it, and on nothing else.
-/

namespace LockFreeRingBuf

open Bytes Resumption Transition

variable {P : Params}

/-- The steps of `RingBufBG` for the visit to one ring, at most. -/
def Params.visit (P : Params) : Nat := 9 * P.batchSizePop + 12

/-- The steps of `RingBufBG` for one iteration of its outer loop, at most. -/
def Params.iteration (P : Params) : Nat := P.threadNum * P.visit + 4

namespace Pipeline

variable {s s' : Pipeline P}

/-- When the outer loop has been left, every ring has given up all its records. -/
theorem exited_collected (h : (pipeline P).Reachable s)
    (hpc : s.bg.pc = .exitFlag ∨ s.bg.pc = .done) {i : Nat} (hi : i < P.threadNum) :
    (s.rings i).collected.length = P.addNum :=
  collected_full h (drained_full h hpc) hi

/-- Between two visits nothing is held of any ring. -/
theorem collected_of_between (h : (pipeline P).Reachable s)
    (hpc : s.bg.pc = .outer ∨ s.bg.pc = .forTest ∨ s.bg.pc = .exitFlag ∨ s.bg.pc = .done)
    (i : Nat) : (s.rings i).collected = (s.rings i).shared.consumed := by
  have hat := (coupled h).bg
  have hidle : s.ring.consumer = .idle := by
    rcases hpc with hpc | hpc | hpc | hpc <;> simpa only [RingBufBG.At, hpc] using hat
  rw [Config.collected, (coupled h).all_idle hidle i]
  exact List.append_nil _

/-- Record `p` of ring `i` is published, and the first `c` are copied out. -/
structure Owes (i c p : Nat) (s : Pipeline P) : Prop where
  published : p < (s.rings i).shared.published.length
  collected : c ≤ (s.rings i).collected.length

namespace Owes

variable {i c p : Nat}

theorem step (h : s.Owes i c p) (hreach : (pipeline P).Reachable s) {l : PipelineLabel}
    (hstep : Pipeline.step l s = some s') : s'.Owes i c p where
  published := Nat.lt_of_lt_of_le h.published (published_mono hstep i)
  collected := Nat.le_trans h.collected (collected_mono hreach hstep i)

/-- Nothing is owed any more when the outer loop has been left. -/
theorem exited (h : s.Owes i c p) (hreach : (pipeline P).Reachable s) (hi : i < P.threadNum)
    (hpc : s.bg.pc = .exitFlag ∨ s.bg.pc = .done) : p < (s.rings i).collected.length := by
  rw [exited_collected hreach hpc hi]
  exact Nat.lt_of_lt_of_le h.published ((coupled hreach).adds i).published_le

/-- The call of `peek` on ring `i`. -/
theorem peek_step {d : Nat} (h : s.Owes i c p) (hreach : (pipeline P).Reachable s)
    (hp : d ≤ p + 1) (hbatch : d ≤ c + P.batchSizePop) (hi : i < P.threadNum)
    (hpc : s.bg.pc = .forTest) (hindex : s.bg.index = i) (hmove : s.BgMoves s') :
    s'.bg.pc.atRing = true ∧ s'.bg.index = i
      ∧ (d ≤ (s'.rings i).collected.length ∨ s'.Gaining i d) := by
  have hcollected := h.collected
  have hpublished := h.published
  rw [collected_of_between hreach (.inr (.inl hpc)) i] at hcollected
  subst hindex
  cases hmove with
  | @peek r _ hlt hr =>
      refine ⟨rfl, rfl, ?_⟩
      cases Config.consumerStep_moves _ _ hr with
      | @call c' taken hstarts =>
          simp only [setRing, Function.update_self]
          by_cases hd : d ≤ (s.rings s.bg.index).shared.consumed.length
          · exact .inl (Nat.le_trans hd (List.prefix_append _ _).length_le)
          · refine .inr ⟨rfl, ?_, ?_⟩
            · simp only [Function.update_self]
              show d ≤ (s.rings s.bg.index).shared.consumed.length + P.batchSizePop
              omega
            · simp only [Function.update_self]
              refine .start rfl ?_
              show (s.rings s.bg.index).shared.consumed.length
                + (d - (s.rings s.bg.index).shared.consumed.length)
                  ≤ (s.rings s.bg.index).shared.published.length
              omega
  | iterate _ hge => exact absurd hi hge
  | _ => cases hpc.symm.trans ‹s.bg.pc = _›

end Owes

end Pipeline

/-! ## Runs -/

namespace BgRun

open Pipeline

variable {ρ : Run (pipeline P)} {i : Nat}

/-- What a single step of `RingBufBG` brings, whatever the others do. -/
theorem bg_turn {F : RingBufBG → Prop} {Q : Pipeline P → Prop}
    (hmove : ∀ s s', (pipeline P).Reachable s → F s.bg → s.BgMoves s' → Q s') :
    ρ.LeadsWithin PipelineLabel.isBg 1 (fun s => F s.bg) Q := by
  refine .of_turn fun l s s' hs hFs hstep => ?_
  cases step_moves hstep with
  | bg hmove' => exact .inl (hmove s s' hs hFs hmove')
  | sink => exact .inr ⟨hFs, rfl⟩
  | add _ hmove' =>
      right
      rw [hmove'.frame.2.2]
      exact ⟨hFs, rfl⟩

theorem take_ends :
    ρ.LeadsWithin PipelineLabel.isBg 1 (fun s => s.bg.pc = .take) (fun s => s.bg.pc = .outer) := by
  refine bg_turn (F := fun bg => bg.pc = .take) ?_
  intro s s' _ hpc hmove
  cases hmove with
  | take => rfl
  | _ => cases hpc.symm.trans ‹s.bg.pc = _›

theorem flush_ends :
    ρ.LeadsWithin PipelineLabel.isBg 1 (fun s => s.bg.pc = .flush) (fun s => s.bg.pc = .outer) := by
  refine bg_turn (F := fun bg => bg.pc = .flush) ?_
  intro s s' _ hpc hmove
  cases hmove with
  | flush => rfl
  | _ => cases hpc.symm.trans ‹s.bg.pc = _›

theorem iterEnd_ends :
    ρ.LeadsWithin PipelineLabel.isBg 2 (fun s => s.bg.pc = .iterEnd)
      (fun s => s.bg.pc = .outer) := by
  have hturn : ρ.LeadsWithin PipelineLabel.isBg 1 (fun s => s.bg.pc = .iterEnd)
      (fun s => s.bg.pc = .outer ∨ s.bg.pc = .flush) := by
    refine bg_turn (F := fun bg => bg.pc = .iterEnd) ?_
    intro s s' _ hpc hmove
    cases hmove with
    | idleIter | drainIter => exact .inl rfl
    | flushIter => exact .inr rfl
    | _ => cases hpc.symm.trans ‹s.bg.pc = _›
  exact hturn.or_else flush_ends

/-- The head of the outer loop. -/
theorem outer_ends :
    ρ.LeadsWithin PipelineLabel.isBg 1 (fun s => s.bg.pc = .outer)
      (fun s => s.bg.pc = .exitFlag ∨ s.bg.pc = .forTest ∧ s.bg.index = 0) := by
  refine bg_turn (F := fun bg => bg.pc = .outer) ?_
  intro s s' _ hpc hmove
  cases hmove with
  | enter => exact .inr ⟨rfl, rfl⟩
  | leave => exact .inl rfl
  | _ => cases hpc.symm.trans ‹s.bg.pc = _›

theorem rings_end {k : Nat} (hk : ¬ k < P.threadNum) :
    ρ.LeadsWithin PipelineLabel.isBg 1 (fun s => s.bg.pc = .forTest ∧ s.bg.index = k)
      (fun s => s.bg.pc = .iterEnd) := by
  refine bg_turn (F := fun bg => bg.pc = .forTest ∧ bg.index = k) ?_
  rintro s s' - ⟨hpc, rfl⟩ hmove
  cases hmove with
  | iterate => rfl
  | peek _ hlt => exact absurd hlt hk
  | _ => cases hpc.symm.trans ‹s.bg.pc = _›

variable (hsized : ∀ t i, (P.header t i).entrySize.toNat < P.sinkBufferSize)

include hsized

/-- A visit ends at the next ring, with what was found copied out. -/
theorem visit_ends (d : Nat) :
    ρ.LeadsWithin PipelineLabel.isBg (9 * P.batchSizePop + 11)
      (fun s => s.bg.pc.atRing = true ∧ s.bg.index = i
        ∧ (d ≤ (s.rings i).collected.length ∨ s.Gaining i d))
      (fun s => (s.bg.pc = .forTest ∧ s.bg.index = i + 1) ∧ d ≤ (s.rings i).collected.length) := by
  have hturns : ρ.LeadsWithin PipelineLabel.isBg (9 * P.batchSizePop + 10 + 1)
      (fun s => s.Visiting (9 * P.batchSizePop + 10) ∧ s.bg.index = i
        ∧ (d ≤ (s.rings i).collected.length ∨ s.Gaining i d))
      (fun s => (s.bg.pc = .forTest ∧ s.bg.index = i + 1) ∧ d ≤ (s.rings i).collected.length) := by
    refine .of_turns (W := fun m (s : Pipeline P) => s.Visiting m ∧ s.bg.index = i
      ∧ (d ≤ (s.rings i).collected.length ∨ s.Gaining i d)) ?_
    rintro m l s s' hs ⟨hv, rfl, hgain⟩ hstep
    have hgain' : d ≤ (s'.rings s.bg.index).collected.length ∨ s'.Gaining s.bg.index d := by
      rcases hgain with hd | hg
      · exact .inl (Nat.le_trans hd (collected_mono hs hstep _))
      · exact hg.step hs hstep
    rcases hv.step hsized hs hstep with hnext | ⟨n, hn, hindex, hle⟩
    · exact .inl ⟨hnext, hgain'.resolve_right fun hg => hg.not_forTest hnext.1⟩
    · exact .inr ⟨n, ⟨hn, hindex, hgain'⟩, hle⟩
  exact hturns.mono (fun s hs h => ⟨.of_atRing hs h.1, h.2⟩) fun _ _ h => h

/-- The visit to ring `i` copies out what it owes, up to a batch. -/
theorem ring_visited (hi : i < P.threadNum) {c d p : Nat} (hp : d ≤ p + 1)
    (hbatch : d ≤ c + P.batchSizePop) :
    ρ.LeadsWithin PipelineLabel.isBg P.visit
      (fun s => (s.bg.pc = .forTest ∧ s.bg.index = i) ∧ s.Owes i c p)
      (fun s => (s.bg.pc = .forTest ∧ s.bg.index = i + 1) ∧ d ≤ (s.rings i).collected.length) := by
  have hcall : ρ.LeadsWithin PipelineLabel.isBg 1
      (fun s => (s.bg.pc = .forTest ∧ s.bg.index = i) ∧ s.Owes i c p)
      (fun s => s.bg.pc.atRing = true ∧ s.bg.index = i
        ∧ (d ≤ (s.rings i).collected.length ∨ s.Gaining i d)) := by
    refine .of_turn ?_
    rintro l s s' hs ⟨⟨hpc, hindex⟩, howes⟩ hstep
    have howes' := howes.step hs hstep
    cases step_moves hstep with
    | bg hmove => exact .inl (howes.peek_step hs hp hbatch hi hpc hindex hmove)
    | sink => exact .inr ⟨⟨⟨hpc, hindex⟩, howes'⟩, rfl⟩
    | add _ hmove =>
        have hsame := hmove.frame.2.2
        exact .inr ⟨⟨by rw [hsame]; exact ⟨hpc, hindex⟩, howes'⟩, rfl⟩
  exact (hcall.trans (visit_ends hsized d)).le (by unfold Params.visit; omega)

theorem next_ring {k : Nat} (hk : k < P.threadNum) :
    ρ.LeadsWithin PipelineLabel.isBg P.visit (fun s => s.bg.pc = .forTest ∧ s.bg.index = k)
      (fun s => s.bg.pc = .forTest ∧ s.bg.index = k + 1) := by
  have hcall : ρ.LeadsWithin PipelineLabel.isBg 1 (fun s => s.bg.pc = .forTest ∧ s.bg.index = k)
      (fun s => s.bg.pc.atRing = true ∧ s.bg.index = k
        ∧ (0 ≤ (s.rings k).collected.length ∨ s.Gaining k 0)) := by
    refine bg_turn (F := fun bg => bg.pc = .forTest ∧ bg.index = k) ?_
    rintro s s' - ⟨hpc, rfl⟩ hmove
    cases hmove with
    | peek => exact ⟨rfl, rfl, .inl (Nat.zero_le _)⟩
    | iterate _ hge => exact absurd hk hge
    | _ => cases hpc.symm.trans ‹s.bg.pc = _›
  exact ((hcall.trans (visit_ends hsized 0)).mono (fun _ _ h => h) fun _ _ h => h.1).le
    (by unfold Params.visit; omega)

/-- From one ring to a later one. -/
theorem later_ring {k j : Nat} (hkj : k ≤ j) (hj : j ≤ P.threadNum) :
    ρ.LeadsWithin PipelineLabel.isBg ((j - k) * P.visit)
      (fun s => s.bg.pc = .forTest ∧ s.bg.index = k)
      (fun s => s.bg.pc = .forTest ∧ s.bg.index = j) := by
  induction hkj with
  | refl => exact .of_imp fun _ _ h => h
  | @step j hkj ih =>
      refine ((ih (Nat.le_of_succ_le hj)).trans (next_ring hsized hj)).le ?_
      rw [Nat.succ_sub hkj, Nat.succ_mul]

/-- From one ring to the end of the iteration. -/
theorem iteration_ends (k : Nat) :
    ρ.LeadsWithin PipelineLabel.isBg ((P.threadNum - k) * P.visit + 3)
      (fun s => s.bg.pc = .forTest ∧ s.bg.index = k) (fun s => s.bg.pc = .outer) := by
  rcases Nat.lt_or_ge k P.threadNum with hk | hk
  · have hlast : ρ.LeadsWithin PipelineLabel.isBg 3
        (fun s => s.bg.pc = .forTest ∧ s.bg.index = P.threadNum) (fun s => s.bg.pc = .outer) :=
      (rings_end (Nat.lt_irrefl _)).trans iterEnd_ends
    exact (later_ring hsized (Nat.le_of_lt hk) (Nat.le_refl _)).trans hlast
  · exact ((rings_end (Nat.not_lt.mpr hk)).trans iterEnd_ends).le (Nat.le_add_left _ _)

/-- `RingBufBG` comes to ring `j`, or has left the outer loop. -/
def ComesTo (j : Nat) (s : Pipeline P) : Prop :=
  (s.bg.pc = .exitFlag ∨ s.bg.pc = .done) ∨ s.bg.pc = .forTest ∧ s.bg.index = j

theorem from_outer {j : Nat} (hj : j ≤ P.threadNum) :
    ρ.LeadsWithin PipelineLabel.isBg (1 + j * P.visit) (fun s => s.bg.pc = .outer)
      (ComesTo j) := by
  have hstart : ρ.LeadsWithin PipelineLabel.isBg 1 (fun s => s.bg.pc = .outer)
      (fun s => ComesTo j s ∨ s.bg.pc = .forTest ∧ s.bg.index = 0) :=
    outer_ends.mono (fun _ _ h => h) fun _ _ h => h.imp_left fun hpc => .inl (.inl hpc)
  exact hstart.or_else ((later_ring hsized (Nat.zero_le j) hj).mono (fun _ _ h => h)
    fun _ _ h => .inr h)

/-- From one ring to another, by way of the next iteration if need be: a ring is
passed at most once, and not every one between two different rings. -/
theorem from_ring (ρ : Run (pipeline P)) {k j : Nat} (hj : j ≤ P.threadNum) :
    ∃ n, n ≤ P.threadNum ∧ (0 < k → k ≤ P.threadNum → n < P.threadNum)
      ∧ ρ.LeadsWithin PipelineLabel.isBg (n * P.visit + 4)
        (fun s => s.bg.pc = .forTest ∧ s.bg.index = k) (ComesTo j) := by
  by_cases hkj : k ≤ j
  · refine ⟨j - k, by omega, by omega, ?_⟩
    exact ((later_ring hsized hkj hj).mono (fun _ _ h => h) fun _ _ h => .inr h).le
      (Nat.le_add_right _ _)
  · refine ⟨P.threadNum - k + j, by omega, by omega, ?_⟩
    refine ((iteration_ends hsized k).trans (from_outer hsized hj)).le ?_
    rw [Nat.add_mul]
    omega

/-- From wherever it is, `RingBufBG` comes to ring `j` within one iteration. -/
theorem comes_to {j : Nat} (hj : j ≤ P.threadNum) :
    ρ.LeadsWithin PipelineLabel.isBg P.iteration (fun _ => True) (ComesTo j) := by
  have hpass : j * P.visit ≤ P.threadNum * P.visit := Nat.mul_le_mul_right _ hj
  have houter : ρ.LeadsWithin PipelineLabel.isBg (1 + j * P.visit) (fun s => s.bg.pc = .outer)
      (ComesTo j) := from_outer hsized hj
  intro t u htu _
  by_cases hring : (ρ.state t).bg.pc.atRing = true
  · have hlt := (coupled (ρ.reachable t)).index hring
    obtain ⟨n, -, hn, hnext⟩ := from_ring hsized ρ (k := (ρ.state t).bg.index + 1) hj
    refine
      (((visit_ends hsized 0).mono (fun _ _ h => h) fun _ _ h => h.1).trans hnext).le ?_ t u htu
      ⟨hring, rfl, .inl (Nat.zero_le _)⟩
    have hle := Nat.mul_le_mul_right P.visit (hn (Nat.succ_pos _) hlt)
    rw [Nat.succ_mul] at hle
    unfold Params.iteration Params.visit at *
    omega
  · unfold Params.iteration
    cases hpc : (ρ.state t).bg.pc with
    | outer => exact houter.le (by omega) t u htu hpc
    | forTest =>
        obtain ⟨n, hn, -, hnext⟩ := from_ring hsized ρ (k := (ρ.state t).bg.index) hj
        exact hnext.le (Nat.add_le_add_right (Nat.mul_le_mul_right _ hn) 4) t u htu ⟨hpc, rfl⟩
    | take => exact (take_ends.trans houter).le (by omega) t u htu hpc
    | iterEnd => exact (iterEnd_ends.trans houter).le (by omega) t u htu hpc
    | flush => exact (flush_ends.trans houter).le (by omega) t u htu hpc
    | exitFlag | done =>
        refine .inl ⟨t, Nat.le_refl t, htu, .inl ?_, Nat.le_add_right _ _⟩
        simp [hpc]
    | _ => simp [hpc] at hring

/-- One iteration, from after the visit to ring `i` to after the next one. -/
theorem round (hi : i < P.threadNum) (c p : Nat) :
    ρ.LeadsWithin PipelineLabel.isBg P.iteration
      (fun s => (s.bg.pc = .forTest ∧ s.bg.index = i + 1) ∧ s.Owes i c p)
      (fun s => p < (s.rings i).collected.length
        ∨ (s.bg.pc = .forTest ∧ s.bg.index = i + 1) ∧ s.Owes i (c + P.batchSizePop) p) := by
  obtain ⟨n, -, hn, hnext⟩ := from_ring hsized ρ (k := i + 1) (Nat.le_of_lt hi)
  have hlt := hn (Nat.succ_pos i) hi
  have hcomes : ρ.LeadsWithin PipelineLabel.isBg (n * P.visit + 4)
      (fun s => (s.bg.pc = .forTest ∧ s.bg.index = i + 1) ∧ s.Owes i c p)
      (fun s => p < (s.rings i).collected.length
        ∨ (s.bg.pc = .forTest ∧ s.bg.index = i) ∧ s.Owes i c p) := by
    refine (hnext.and_kept (R := fun s => s.Owes i c p)
      fun _ _ _ hs h hstep => h.step hs hstep).mono (fun _ _ h => h) ?_
    rintro s hs ⟨hexit | hring, howes⟩
    · exact .inl (howes.exited hs hi hexit)
    · exact .inr ⟨hring, howes⟩
  have hvisit : ρ.LeadsWithin PipelineLabel.isBg P.visit
      (fun s => (s.bg.pc = .forTest ∧ s.bg.index = i) ∧ s.Owes i c p)
      (fun s => p < (s.rings i).collected.length
        ∨ (s.bg.pc = .forTest ∧ s.bg.index = i + 1) ∧ s.Owes i (c + P.batchSizePop) p) := by
    refine ((ring_visited hsized hi (d := min (p + 1) (c + P.batchSizePop)) (Nat.min_le_left _ _)
      (Nat.min_le_right _ _)).and_kept (R := fun s => s.Owes i c p)
      fun _ _ _ hs h hstep => h.step hs hstep).mono (fun _ _ h => ⟨h, h.2⟩) ?_
    rintro s - ⟨⟨hring, hd⟩, howes⟩
    rcases Nat.lt_or_ge p (c + P.batchSizePop) with hp | hp
    · exact .inl (by omega)
    · exact .inr ⟨hring, howes.published, by omega⟩
  have hle := Nat.mul_le_mul_right P.visit hlt
  rw [Nat.succ_mul] at hle
  exact ((hcomes.mono (fun _ _ h => h) fun _ _ h => h.imp_left .inl).or_else hvisit).le
    (by unfold Params.iteration; omega)

/-- A batch for each iteration. -/
theorem rounds (hi : i < P.threadNum) (p n : Nat) :
    ∀ c, p < c + n * P.batchSizePop → ρ.LeadsWithin PipelineLabel.isBg (n * P.iteration)
      (fun s => (s.bg.pc = .forTest ∧ s.bg.index = i + 1) ∧ s.Owes i c p)
      (fun s => p < (s.rings i).collected.length) := by
  induction n with
  | zero =>
      intro c hp
      refine .of_imp ?_
      rintro s - ⟨-, howes⟩
      exact Nat.lt_of_lt_of_le hp (by simpa using howes.collected)
  | succ n ih =>
      intro c hp
      rw [Nat.succ_mul] at hp
      exact ((round hsized hi c p).or_else (ih (c + P.batchSizePop) (by omega))).le
        (by rw [Nat.succ_mul]; omega)

/-- A record that is published is copied out: after an iteration in which its ring
may have been passed already, one for each batch before it, and its own. -/
theorem ring_drains (hi : i < P.threadNum) {c p n : Nat} (hp : p < c + n * P.batchSizePop) :
    ρ.LeadsWithin PipelineLabel.isBg ((n + 1) * P.iteration) (fun s => s.Owes i c p)
      (fun s => p < (s.rings i).collected.length) := by
  have hcomes : ρ.LeadsWithin PipelineLabel.isBg P.iteration (fun s => s.Owes i c p)
      (fun s => p < (s.rings i).collected.length
        ∨ (s.bg.pc = .forTest ∧ s.bg.index = i + 1) ∧ s.Owes i c p) := by
    refine ((comes_to hsized (Nat.succ_le_of_lt hi)).and_kept (R := fun s => s.Owes i c p)
      fun _ _ _ hs h hstep => h.step hs hstep).mono (fun _ _ h => ⟨trivial, h⟩) ?_
    rintro s hs ⟨hexit | hring, howes⟩
    · exact .inl (howes.exited hs hi hexit)
    · exact .inr ⟨hring, howes⟩
  exact (hcomes.or_else (rounds hsized hi p n c hp)).le (by rw [Nat.succ_mul]; omega)

/-- And its slot is released to the producer within one iteration more. -/
theorem ring_releases (hi : i < P.threadNum) {c p n : Nat} (hp : p < c + n * P.batchSizePop) :
    ρ.LeadsWithin PipelineLabel.isBg ((n + 1) * P.iteration + P.iteration)
      (fun s => s.Owes i c p) (fun s => p < (s.rings i).shared.consumed.length) := by
  refine (ring_drains hsized hi hp).trans (((comes_to hsized (Nat.zero_le _)).and_kept
    (R := fun s => p < (s.rings i).collected.length) fun _ _ _ hs h hstep =>
      Nat.lt_of_lt_of_le h (collected_mono hs hstep i)).mono (fun _ _ h => ⟨trivial, h⟩) ?_)
  rintro s hs ⟨hcomes, hlt⟩
  have hbetween :
      s.bg.pc = .outer ∨ s.bg.pc = .forTest ∨ s.bg.pc = .exitFlag ∨ s.bg.pc = .done := by
    rcases hcomes with hexit | ⟨hpc, -⟩
    · exact .inr (.inr hexit)
    · exact .inr (.inl hpc)
  rwa [collected_of_between hs hbetween] at hlt

end BgRun

open Pipeline

/-- In every run, whatever the order of the steps: a record in a ring is copied out
before `RingBufBG` has taken as many steps as go into one iteration for each
batch that stands before it in its ring, and two more; that is never more than
a number fixed by the parameters. -/
theorem record_latency (ρ : Run (pipeline P))
    (hsized : ∀ t i, (P.header t i).entrySize.toNat < P.sinkBufferSize)
    (hbatch : 0 < P.batchSizePop) {i p t u : Nat} (hi : i < P.threadNum) (htu : t ≤ u)
    (hp : p < ((ρ.state t).rings i).shared.published.length)
    (hnot : ¬ p < ((ρ.state u).pool.drainedFrom i).length) :
    ρ.turns PipelineLabel.isBg u < ρ.turns PipelineLabel.isBg t
        + ((p - ((ρ.state t).pool.drainedFrom i).length) / P.batchSizePop + 2) * P.iteration
      ∧ (p - ((ρ.state t).pool.drainedFrom i).length) / P.batchSizePop
        ≤ P.ringBufSize.size / P.batchSizePop := by
  have hdrained : ∀ v, (ρ.state v).pool.drainedFrom i = ((ρ.state v).rings i).collected :=
    fun v => (drains (ρ.reachable v)).collected i
  rw [hdrained] at hnot ⊢
  generalize hc : ((ρ.state t).rings i).collected.length = c
  constructor
  · have hlt : p < c + ((p - c) / P.batchSizePop + 1) * P.batchSizePop := by
      have hdiv := Nat.lt_div_mul_add hbatch (a := p - c)
      rw [Nat.succ_mul]
      omega
    rcases BgRun.ring_drains hsized hi hlt t u htu ⟨hp, Nat.le_of_eq hc.symm⟩ with
      ⟨v, -, hvu, hv, -⟩ | hwaits
    · have hkept : p < ((ρ.state u).rings i).collected.length :=
        Run.keeps (P := fun s : Pipeline P => p < (s.rings i).collected.length)
          (fun _ _ _ hs h hstep => Nat.lt_of_lt_of_le h (collected_mono hs hstep i)) hvu hv
      exact absurd hkept hnot
    · exact hwaits
  · have hroom := (counters_reachable (ring_reachable (ρ.reachable t) i)).room
    refine Nat.div_le_div_right ?_
    rw [← hc, Config.collected, List.length_append]
    omega

/-- Two records wait while `RingBufBG` takes its first three steps. -/
theorem record_latency_tiny :
    ∃ ρ : Run (pipeline .tiny), 1 < ((ρ.state 27).rings 0).shared.published.length
      ∧ ¬ 1 < ((ρ.state 30).pool.drainedFrom 0).length
      ∧ ρ.turns PipelineLabel.isBg 30 < ρ.turns PipelineLabel.isBg 27
        + ((1 - ((ρ.state 27).pool.drainedFrom 0).length) / 1000 + 2) * Params.tiny.iteration := by
  let turns := schedule [(.add 0 5#64, 27), (.bg, 3)]
  let states := (pipeline .tiny).replay turns Pipeline.tiny
  have hpublished : 1 < ((states 27).rings 0).shared.published.length := by decide +kernel
  have hdrained : ¬ 1 < ((states 30).pool.drainedFrom 0).length := by decide +kernel
  obtain ⟨ρ, hρ⟩ : ∃ ρ : Run (pipeline .tiny), states = ρ.state :=
    ⟨.replay _ turns ⟨_, _, rfl⟩, rfl⟩
  rw [hρ] at hpublished hdrained
  have hwaits := (record_latency ρ (fun _ _ => Nat.lt_succ_self 12) (Nat.succ_pos 999) Nat.one_pos
    (by omega) hpublished hdrained).1
  exact ⟨ρ, hpublished, hdrained, hwaits⟩

/-! ## The queue of `sinkBufBG` -/

theorem Pool.Moves.pushes_grow {R : Type} {CacheBufQueueSize : Nat} {pool pool' : Pool R}
    {l : PoolLabel R} (h : pool.Moves CacheBufQueueSize l pool') :
    pool.pushes <+: pool'.pushes := by
  cases h with
  | swap | grow => exact List.prefix_append _ _
  | _ => exact List.prefix_rfl

/-- The steps of `sinkBufBG` before the next `write`, while the queue is not empty
and the flag not seen. -/
def SinkBufBG.toWrite : SinkBufBG → Nat
  | .write _ => 0
  | .pop => 1
  | .sizeTest => 2
  | .exitTest => 3
  | .delete _ => 4
  | .pushBack _ => 4
  | .cacheTest _ => 5
  | .reset _ => 6
  | .done => 0

namespace Pipeline

variable {s s' : Pipeline P}

theorem pushes_grow {l : PipelineLabel} (hstep : Pipeline.step l s = some s') :
    s.pool.pushes <+: s'.pool.pushes := by
  rcases pool_step hstep with hsame | ⟨c, hpool⟩
  · rw [hsame]
  · exact (Pool.step_moves hpool).pushes_grow

/-- The `k`-th push waits to be written. -/
structure Queued (k n : Nat) (s : Pipeline P) : Prop where
  pushed : k < s.pool.pushes.length
  unwritten : s.pool.writes.length ≤ k
  running : s.pool.sink ≠ .done
  turns : 7 * (k - s.pool.writes.length) + s.pool.sink.toWrite ≤ n

theorem Queued.queue_pos {k n : Nat} (h : s.Queued k n) (hreach : (pipeline P).Reachable s)
    (hsink : s.pool.sink = .sizeTest) : s.pool.sinkBufQueue.length > 0 := by
  have hlogged : _ = _ := logged hreach
  have hlength := congrArg List.length hlogged
  have hpushed := h.pushed
  have hunwritten := h.unwritten
  simp only [List.length_append, List.length_map, hsink, SinkBufBG.unwritten, List.length_nil]
    at hlength
  omega

theorem Queued.sink_step {k n : Nat} (h : s.Queued k n) (hreach : (pipeline P).Reachable s)
    {pool : Pool (Record P.argNum)} (hmove : s.pool.Moves P.cacheBufQueueSize .sink pool) :
    (k < pool.writes.length ∨ pool.sink = .done)
      ∨ ∃ m, ({ s with pool } : Pipeline P).Queued k m ∧ m + 1 ≤ n := by
  have hturns := h.turns
  have hle := h.unwritten
  cases hmove with
  | exitTest hsink =>
      by_cases hflag : s.pool.sinkBufBGExit = true
      · exact .inl (.inr (by simp [hflag]))
      · rw [hsink] at hturns
        refine .inr ⟨7 * (k - s.pool.writes.length) + 2, ⟨h.pushed, hle, ?_, ?_⟩, ?_⟩
        · simp [hflag]
        · simp [hflag, SinkBufBG.toWrite]
        · simp only [SinkBufBG.toWrite] at hturns
          omega
  | sizeTest hsink =>
      have hpos := h.queue_pos hreach hsink
      rw [hsink] at hturns
      simp only [if_pos hpos]
      refine .inr ⟨7 * (k - s.pool.writes.length) + 1, ⟨h.pushed, hle, ?_, ?_⟩, ?_⟩
      · simp
      · simp [SinkBufBG.toWrite]
      · simp only [SinkBufBG.toWrite] at hturns
        omega
  | write hsink =>
      rw [hsink] at hturns
      simp only [SinkBufBG.toWrite] at hturns
      by_cases hlast : k = s.pool.writes.length
      · refine .inl (.inl ?_)
        simp [hlast]
      · refine .inr ⟨7 * (k - (s.pool.writes.length + 1)) + 6, ⟨h.pushed, ?_, ?_, ?_⟩, ?_⟩
        · simp only [List.length_append, List.length_singleton]
          omega
        · simp
        · simp [SinkBufBG.toWrite]
        · omega
  | cacheTest hsink =>
      rw [hsink] at hturns
      simp only [SinkBufBG.toWrite] at hturns
      refine .inr ⟨7 * (k - s.pool.writes.length) + 4, ⟨h.pushed, hle, ?_, ?_⟩, by omega⟩
      · simp only
        split <;> simp
      · simp only
        split <;> simp [SinkBufBG.toWrite]
  | pop hsink | reset hsink | delete hsink | pushBack hsink =>
      rw [hsink] at hturns
      simp only [SinkBufBG.toWrite] at hturns
      refine .inr ⟨_, ⟨h.pushed, hle, ?_, Nat.le_refl _⟩, ?_⟩
      · simp
      · simp only [SinkBufBG.toWrite]
        omega

theorem Queued.step {k n : Nat} (h : s.Queued k n) (hreach : (pipeline P).Reachable s)
    {l : PipelineLabel} (hstep : Pipeline.step l s = some s') :
    (k < s'.pool.writes.length ∨ s'.pool.sink = .done)
      ∨ ∃ m, s'.Queued k m ∧ m + (if l.isSink then 1 else 0) ≤ n := by
  have hpushed := Nat.lt_of_lt_of_le h.pushed (pushes_grow hstep).length_le
  cases step_moves hstep with
  | sink hpool => exact h.sink_step hreach (Pool.step_moves hpool)
  | add _ hmove =>
      refine .inr ⟨n, ⟨hpushed, ?_, ?_, ?_⟩, Nat.le_refl _⟩ <;> rw [hmove.frame.2.1]
      · exact h.unwritten
      · exact h.running
      · exact h.turns
  | bg hmove =>
      have hframe : s'.pool.writes = s.pool.writes ∧ s'.pool.sink = s.pool.sink := by
        rcases hmove.pool_cases with ⟨-, hsame⟩ | ⟨c, hpool, -⟩
        · rw [hsame]
          exact ⟨rfl, rfl⟩
        · generalize s'.pool = pool at hpool
          cases Pool.step_moves hpool <;> exact ⟨rfl, rfl⟩
      refine .inr ⟨n, ⟨hpushed, ?_, ?_, ?_⟩, Nat.le_refl _⟩
      · rw [hframe.1]
        exact h.unwritten
      · rw [hframe.2]
        exact h.running
      · rw [hframe.1, hframe.2]
        exact h.turns

/-- What is written stays written, and `sinkBufBG` returns once. -/
theorem written_step {k : Nat} {l : PipelineLabel} (hstep : Pipeline.step l s = some s')
    (h : k < s.pool.writes.length ∨ s.pool.sink = .done) :
    k < s'.pool.writes.length ∨ s'.pool.sink = .done := by
  rcases pool_step hstep with hsame | ⟨c, hpool⟩
  · rw [hsame]
    exact h
  · generalize s'.pool = pool at hpool
    rcases h with hk | hdone
    · left
      cases Pool.step_moves hpool with
      | write =>
          rw [List.length_append]
          exact Nat.lt_add_right _ hk
      | _ => exact hk
    · right
      cases Pool.step_moves hpool with
      | take | store | add | append | swap | grow | exit => exact hdone
      | _ => cases hdone.symm.trans ‹s.pool.sink = _›

end Pipeline

/-- A buffer that is pushed is written, with the bytes it had, before `sinkBufBG`
has taken seven steps for it and for each buffer pushed before it and not
written yet, unless `sinkBufBG` has returned: these bytes then stand in the file
behind those of the buffers written before. -/
theorem push_latency (ρ : Run (pipeline P)) {k t u : Nat} (htu : t ≤ u)
    (hk : k < (ρ.state t).pool.pushes.length)
    (hturns : ρ.turns PipelineLabel.isSink t + 7 * (k + 1 - (ρ.state t).pool.writes.length)
      ≤ ρ.turns PipelineLabel.isSink u)
    (hrunning : (ρ.state u).pool.sink ≠ .done) :
    (ρ.state u).pool.writes[k]? = (ρ.state t).pool.pushes[k]?
      ∧ (ρ.state u).pool.file = (ρ.state u).pool.writes.flatMap Prod.snd := by
  have hkept : ∀ {v}, v ≤ u → (k < (ρ.state v).pool.writes.length ∨ (ρ.state v).pool.sink = .done) →
      k < (ρ.state u).pool.writes.length := fun hvu hv =>
    (Run.keeps (P := fun s : Pipeline P => k < s.pool.writes.length ∨ s.pool.sink = .done)
      (fun _ _ _ _ h hstep => written_step hstep h) hvu hv).resolve_right hrunning
  have hwritten : k < (ρ.state u).pool.writes.length := by
    by_cases hstart : k < (ρ.state t).pool.writes.length ∨ (ρ.state t).pool.sink = .done
    · exact hkept htu hstart
    · rw [not_or] at hstart
      have hqueued : (ρ.state t).Queued k (7 * (k - (ρ.state t).pool.writes.length) + 6) := by
        refine ⟨hk, Nat.le_of_not_lt hstart.1, hstart.2, Nat.add_le_add_left ?_ _⟩
        cases (ρ.state t).pool.sink <;> simp [SinkBufBG.toWrite]
      have hwithin : ∀ n, ρ.LeadsWithin PipelineLabel.isSink (n + 1) (Queued k n)
          (fun s => k < s.pool.writes.length ∨ s.pool.sink = .done) := fun n =>
        .of_turns (W := Queued k) fun n l s s' hs h hstep => h.step hs hstep
      rcases hwithin _ t u htu hqueued with ⟨v, -, hvu, hv, -⟩ | hwaits
      · exact hkept hvu hv
      · omega
  have hlogged : _ = (ρ.state u).pool.pushes := logged (ρ.reachable u)
  obtain ⟨later, hlater⟩ : (ρ.state t).pool.pushes <+: (ρ.state u).pool.pushes :=
    Run.keeps (P := fun s : Pipeline P => (ρ.state t).pool.pushes <+: s.pool.pushes)
      (fun _ _ _ _ h hstep => h.trans (pushes_grow hstep)) htu List.prefix_rfl
  have hsame : (ρ.state u).pool.pushes[k]? = (ρ.state t).pool.pushes[k]? := by
    rw [← hlater, List.getElem?_append_left hk]
  refine ⟨?_, file_eq_writes (ρ.reachable u)⟩
  rw [← hsame, ← hlogged, List.append_assoc, List.getElem?_append_left hwritten]

/-- The first buffer is pushed and written while the second is being filled. -/
theorem push_latency_tiny :
    ∃ ρ : Run (pipeline .tiny), 0 < (ρ.state 52).pool.pushes.length
      ∧ (ρ.state 59).pool.sink ≠ .done
      ∧ (ρ.state 59).pool.writes[0]? = (ρ.state 52).pool.pushes[0]?
      ∧ (ρ.state 59).pool.file = (ρ.state 59).pool.writes.flatMap Prod.snd := by
  let turns := schedule [(.add 0 5#64, 27), (.bg, 25), (.sink, 7)]
  let ρ : Run (pipeline .tiny) := .replay _ turns (s := Pipeline.tiny) ⟨_, _, rfl⟩
  have hpushed : 0 < (ρ.state 52).pool.pushes.length := by decide +kernel
  have hrunning : (ρ.state 59).pool.sink ≠ .done := by decide +kernel
  have hturns : ρ.turns PipelineLabel.isSink 52
      + 7 * (0 + 1 - (ρ.state 52).pool.writes.length)
        ≤ ρ.turns PipelineLabel.isSink 59 := by decide +kernel
  exact ⟨ρ, hpushed, hrunning, push_latency ρ (by omega) hpushed hturns hrunning⟩

end LockFreeRingBuf
