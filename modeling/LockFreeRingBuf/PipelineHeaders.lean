import LockFreeRingBuf.PipelineRings

/-!
# The sizes that records announce

`add` writes `entrySize` through the reserved pointer before anything else;
the later writes leave it alone. So whatever a ring has published announces
a size that its producer wrote.
-/

namespace LockFreeRingBuf

open Bytes Resumption Transition

variable {P : Params}

/-- The size is one that thread `i` writes. -/
def Announced (P : Params) (i : Nat) (e : UncompressedEntry P.argNum) : Prop :=
  ∃ k, e.entrySize = (P.header i k).entrySize

/-- `entrySize` is written, and the record not yet published. -/
@[simp] def AddPc.sized : AddPc → Bool
  | .fmtId => true
  | .timestamp => true
  | .finish => true
  | .finishing => true
  | _ => false

namespace Pipeline

structure Announces (s : Pipeline P) : Prop where
  published : ∀ i, ∀ e ∈ (s.rings i).shared.published, Announced P i e
  offered : ∀ i, (s.adds i).pc.sized = true → ∀ e ∈ (s.rings i).producer.offer, Announced P i e

namespace Announces

variable {s s' : Pipeline P}

/-- A step of producer `k` that ends at `a` in ring `r`. -/
theorem produce (h : s.Announces) {k : Nat} {r : Config (UncompressedEntry P.argNum)}
    {a : AddThread} (hpub : ∀ e ∈ r.shared.published, Announced P k e)
    (hoffer : a.pc.sized = true → ∀ e ∈ r.producer.offer, Announced P k e) :
    ({ s with
      rings := Function.update s.rings k r, adds := Function.update s.adds k a } :
        Pipeline P).Announces := by
  refine ⟨fun i => ?_, fun i => ?_⟩
  · by_cases hi : i = k
    · subst hi
      simpa only [Function.update_self] using hpub
    · simpa only [Function.update_of_ne hi] using h.published i
  · by_cases hi : i = k
    · subst hi
      simpa only [Function.update_self] using hoffer
    · simpa only [Function.update_of_ne hi] using h.offered i

/-- A step of producer `k` on local variables. -/
theorem local_add (h : s.Announces) {k : Nat} {a : AddThread} (ha : a.pc.sized = false) :
    ({ s with adds := Function.update s.adds k a } : Pipeline P).Announces := by
  refine ⟨h.published, fun i hi => ?_⟩
  by_cases hik : i = k
  · subst hik
    simp only [Function.update_self, ha] at hi
    cases hi
  · simp only [Function.update_of_ne hik] at hi
    exact h.offered i hi

theorem add_step (h : s.Announces) (hreach : (pipeline P).Reachable s) {i : Nat}
    {tsc : BitVec 64} (hmove : s.AddMoves i tsc s') : s'.Announces := by
  have hring := ring_reachable hreach i
  have hat := (coupled hreach).adds i
  have hpublished := h.published i
  have hoffered := h.offered i
  cases hmove with
  | enter hpc | stop hpc => exact h.local_add rfl
  | reserve hpc hr =>
      simp only [AddThread.At, hpc] at hat
      obtain ⟨-, hpub⟩ := reserve_calls hat.1 (Config.producerStep_moves _ _ hr)
      rw [← hpub] at hpublished
      exact h.produce hpublished fun hpc => by cases hpc
  | reserving hpc hr _ =>
      simp only [AddThread.At, hpc] at hat
      obtain ⟨⟨p, hrun, hp⟩, -⟩ := hat
      obtain ⟨-, hpub⟩ := reserve_steps hring hrun hp (Config.producerStep_moves _ _ hr)
      rw [← hpub] at hpublished
      have hsame := h.produce (a := s.adds i) hpublished (by simp [hpc])
      rwa [Function.update_eq_self] at hsame
  | reserved hpc hr _ =>
      simp only [AddThread.At, hpc] at hat
      obtain ⟨⟨p, hrun, hp⟩, -⟩ := hat
      obtain ⟨-, hpub⟩ := reserve_steps hring hrun hp (Config.producerStep_moves _ _ hr)
      rw [← hpub] at hpublished
      exact h.produce hpublished fun hpc => by cases hpc
  | entrySize hpc hr =>
      simp only [AddThread.At, hpc] at hat
      obtain ⟨⟨q, v, hres⟩, -⟩ := hat
      obtain ⟨hp, hpub⟩ := write_steps hres (Config.producerStep_moves _ _ hr)
      rw [← hpub] at hpublished
      refine h.produce hpublished fun _ e he => ?_
      rw [hp] at he
      obtain rfl := List.mem_singleton.mp he
      exact ⟨_, rfl⟩
  | fmtId hpc hr | timestamp hpc hr =>
      simp only [AddThread.At, hpc] at hat
      obtain ⟨⟨q, v, hres, -⟩, -⟩ := hat
      obtain ⟨hp, hpub⟩ := write_steps hres (Config.producerStep_moves _ _ hr)
      rw [← hpub] at hpublished
      refine h.produce hpublished fun _ e he => ?_
      rw [hp] at he
      obtain rfl := List.mem_singleton.mp he
      exact hoffered (by rw [hpc]; rfl) v (by rw [hres]; exact List.mem_singleton_self v)
  | finish hpc hr =>
      simp only [AddThread.At, hpc] at hat
      obtain ⟨⟨q, v, hres, -⟩, -⟩ := hat
      obtain ⟨⟨p, hp⟩, hpub⟩ := finish_calls hres (Config.producerStep_moves _ _ hr)
      rw [← hpub] at hpublished
      refine h.produce hpublished fun _ e he => ?_
      rw [hp] at he
      exact hoffered (by rw [hpc]; rfl) e (by rw [hres]; exact he)
  | @finishing r hpc hr hnot =>
      simp only [AddThread.At, hpc] at hat
      obtain ⟨⟨offer, p, hrun, -⟩, -⟩ := hat
      have hoffer : ∀ e ∈ offer, Announced P i e := by
        intro e he
        exact hoffered (by rw [hpc]; rfl) e (by rw [hrun]; exact he)
      rcases finish_steps hring hrun (Config.producerStep_moves _ _ hr) with
        ⟨offer', p', hp, hpub⟩ | ⟨hidle, -⟩
      · have hall : ∀ e ∈ r.shared.published ++ offer', Announced P i e := by
          rw [hpub]
          exact fun e he => (List.mem_append.mp he).elim (hpublished e) (hoffer e)
        have hsame := h.produce (a := s.adds i)
          (fun e he => hall e (List.mem_append_left _ he)) fun _ e he => by
            rw [hp] at he
            exact hall e (List.mem_append_right _ he)
        rwa [Function.update_eq_self] at hsame
      · exact absurd hidle hnot
  | finished hpc hr hidle =>
      simp only [AddThread.At, hpc] at hat
      obtain ⟨⟨offer, p, hrun, -⟩, -⟩ := hat
      rcases finish_steps hring hrun (Config.producerStep_moves _ _ hr) with
        ⟨offer', p', hp, -⟩ | ⟨-, hpub⟩
      · rw [hidle] at hp
        cases hp
      · refine h.produce (fun e he => ?_) fun hpc => by cases hpc
        rw [hpub] at he
        exact (List.mem_append.mp he).elim (hpublished e)
          fun he => hoffered (by rw [hpc]; rfl) e (by rw [hrun]; exact he)

theorem bg_step (h : s.Announces) (hmove : s.BgMoves s') : s'.Announces := by
  have hadds : s'.adds = s.adds := by cases hmove <;> rfl
  have hrings := hmove.ring_frame
  refine ⟨fun i => ?_, fun i => ?_⟩
  · rw [(hrings i).2]
    exact h.published i
  · rw [hadds, (hrings i).1]
    exact h.offered i

end Announces

theorem announces {s : Pipeline P} (h : (pipeline P).Reachable s) : s.Announces := by
  refine h.invariant (I := Announces) ?_ ?_
  · rintro s ⟨arr, memory, rfl⟩
    refine ⟨fun i e he => ?_, fun i hpc => ?_⟩
    · cases he
    · cases hpc
  · intro l u u' hreach hu hstep
    cases step_moves hstep with
    | add _ hmove => exact hu.add_step hreach hmove
    | bg hmove => exact hu.bg_step hmove
    | sink hpool => exact ⟨hu.published, hu.offered⟩

end Pipeline

end LockFreeRingBuf
