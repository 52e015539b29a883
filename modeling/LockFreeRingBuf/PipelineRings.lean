import LockFreeRingBuf.PipelineSteps
import LockFreeRingBuf.RingCalls

/-!
# Where each thread stands in its ring

`Coupled` relates the place of each thread in its function to the state of
its side of the ring: which call it is in, how many of the peeked records
it has read, how many records it has published. Every step that is one of
`RingBufBG`'s then either copies one record out of the ring it is at or
leaves what each ring has given up as it is (`collected_step`).
-/

namespace LockFreeRingBuf

open Bytes Resumption Transition

variable {P : Params}

/-- The record fits into the bytes its `entrySize` announces. -/
def UncompressedEntry.Sized {n : Nat} (e : UncompressedEntry n) : Prop :=
  12 + n ≤ e.entrySize.toNat

/-! ## A thread in `add` -/

/-- The producer's side of a ring while its thread is at `a`. -/
def AddThread.At (P : Params) (a : AddThread) (r : Config (UncompressedEntry P.argNum)) : Prop :=
  match a.pc with
  | .test => r.producer = .idle ∧ r.shared.published.length = a.i ∧ a.i ≤ P.addNum
  | .rdtsc => r.producer = .idle ∧ r.shared.published.length = a.i ∧ a.i < P.addNum
  | .reserving => (∃ p, r.producer = .running .reserve1 [] p ∧ ReadsCounters p)
      ∧ r.shared.published.length = a.i ∧ a.i < P.addNum
  | .entrySize => (∃ i v, r.producer = .reserved i v)
      ∧ r.shared.published.length = a.i ∧ a.i < P.addNum
  | .fmtId => (∃ i v, r.producer = .reserved i v ∧ v.Sized)
      ∧ r.shared.published.length = a.i ∧ a.i < P.addNum
  | .timestamp => (∃ i v, r.producer = .reserved i v ∧ v.Sized)
      ∧ r.shared.published.length = a.i ∧ a.i < P.addNum
  | .finish => (∃ i v, r.producer = .reserved i v ∧ v.Sized)
      ∧ r.shared.published.length = a.i ∧ a.i < P.addNum
  | .finishing => (∃ offer p, r.producer = .running .finish1 offer p ∧ (∀ e ∈ offer, e.Sized)
      ∧ (r.shared.published ++ offer).length = a.i + 1) ∧ a.i < P.addNum
  | .done => r.producer = .idle ∧ r.shared.published.length = a.i ∧ a.i ≤ P.addNum

namespace AddThread.At

variable {a : AddThread} {r r' : Config (UncompressedEntry P.argNum)}

theorem congr (h : a.At P r) (hp : r'.producer = r.producer)
    (hs : r'.shared.published = r.shared.published) : a.At P r' := by
  unfold AddThread.At at h ⊢
  rw [hp, hs]
  exact h

theorem published_le (h : a.At P r) : r.shared.published.length ≤ P.addNum := by
  obtain ⟨pc, i, t⟩ := a
  cases pc with
  | finishing =>
      obtain ⟨⟨offer, p, -, -, hlen⟩, hlt⟩ := h
      rw [List.length_append] at hlen
      omega
  | test | done => exact Nat.le_trans (Nat.le_of_eq h.2.1) h.2.2
  | _ => exact Nat.le_of_lt (Nat.lt_of_le_of_lt (Nat.le_of_eq h.2.1) h.2.2)

end AddThread.At

/-! ## `RingBufBG` -/

/-- `RingBufBG` holds a batch of which `count` records are still to be read. -/
def RingBufBG.Copies (P : Params) (bg : RingBufBG) (r : Config (UncompressedEntry P.argNum)) :
    Prop :=
  ∃ p taken, r.consumer = .peeked bg.n p taken ∧ (taken.length : Int) + bg.count = bg.n.toInt

theorem RingBufBG.Copies.count_le {bg : RingBufBG} {r : Config (UncompressedEntry P.argNum)}
    (h : bg.Copies P r) : bg.count ≤ bg.n.toInt := by
  obtain ⟨p, taken, -, hcount⟩ := h
  omega

/-- The consumer's side of the ring that `RingBufBG` is at. -/
def RingBufBG.At (P : Params) (bg : RingBufBG) (r : Config (UncompressedEntry P.argNum)) : Prop :=
  match bg.pc with
  | .peeking =>
      ∃ p, r.consumer = .running (.peek (BitVec.ofNat 32 P.batchSizePop)) [] p ∧ ReadsCounters p
  | .peekTest => ∃ p, r.consumer = .peeked bg.n p []
  | .copyTest => bg.Copies P r ∧ 0 ≤ bg.count
  | .avail => bg.Copies P r ∧ 0 < bg.count
  | .fmtId => bg.Copies P r ∧ 0 < bg.count
  | .timestamp => bg.Copies P r ∧ 0 < bg.count
  | .add12 => bg.Copies P r ∧ 0 < bg.count
  | .append => bg.Copies P r ∧ 0 < bg.count
  | .swapFull => bg.Copies P r ∧ 0 < bg.count
  | .consuming => Consuming (Pipeline.element P.argNum) P.ringBufSize bg.n r
  | _ => r.consumer = .idle

/-- Between `peek` and the end of the iteration over one ring. -/
@[simp] def BgPc.holdsBatch : BgPc → Bool
  | .peekTest => true
  | .copyTest => true
  | .avail => true
  | .fmtId => true
  | .timestamp => true
  | .add12 => true
  | .append => true
  | .swapFull => true
  | .consuming => true
  | .tally => true
  | _ => false

/-- `index < ThreadNum` has been tested for this ring. -/
@[simp] def BgPc.atRing : BgPc → Bool
  | .peeking => true
  | pc => pc.holdsBatch

theorem RingBufBG.At.congr {bg : RingBufBG} {r r' : Config (UncompressedEntry P.argNum)}
    (h : bg.At P r) (hc : r'.consumer = r.consumer)
    (hs : r'.shared.consumed = r.shared.consumed) : bg.At P r' := by
  obtain ⟨pc, j, nItr, nPerItr, index, n, count⟩ := bg
  cases pc with
  | consuming => exact Consuming.congr h hc hs
  | _ => simpa only [RingBufBG.At, RingBufBG.Copies, hc] using h

namespace Pipeline

/-! ## The coupling -/

structure Coupled (s : Pipeline P) : Prop where
  adds : ∀ i, (s.adds i).At P (s.rings i)
  sized : ∀ i, ∀ e ∈ (s.rings i).shared.published, e.Sized
  bg : s.bg.At P s.ring
  others : ∀ i, i ≠ s.bg.index → (s.rings i).consumer = .idle
  batch : s.bg.pc.holdsBatch = true → s.bg.n.toNat ≤ P.batchSizePop
  index : s.bg.pc.atRing = true → s.bg.index < P.threadNum

theorem coupled_main (arr : Nat → Nat → UncompressedEntry P.argNum)
    (memory : Nat → Nat → Byte) : (Pipeline.main arr memory : Pipeline P).Coupled where
  adds _ := ⟨rfl, rfl, Nat.zero_le _⟩
  sized _ _ he := by cases he
  bg := rfl
  others _ _ := rfl
  batch h := by cases h
  index h := by cases h

namespace Coupled

variable {s s' : Pipeline P}

/-! ### Steps of the producers -/

/-- A step of producer `k` that ends at `a` in ring `r`. -/
theorem produce (h : s.Coupled) {k : Nat} {c : ProducerCmd (UncompressedEntry P.argNum)}
    {r : Config (UncompressedEntry P.argNum)} {a : AddThread} (hr : s.ProducerSteps k c r)
    (hat : a.At P r) (hsized : ∀ e ∈ r.shared.published, e.Sized) :
    ({ s with
      rings := Function.update s.rings k r, adds := Function.update s.adds k a } :
        Pipeline P).Coupled := by
  have hcons := updateRing_frame hr
  refine ⟨fun i => ?_, fun i => ?_, h.bg.congr (hcons _).1 (hcons _).2.1,
    fun i hi => (hcons i).1.trans (h.others i hi), h.batch, h.index⟩
  · by_cases hi : i = k
    · subst hi
      simpa only [Function.update_self] using hat
    · simpa only [Function.update_of_ne hi] using h.adds i
  · by_cases hi : i = k
    · subst hi
      simpa only [Function.update_self] using hsized
    · simpa only [Function.update_of_ne hi] using h.sized i

/-- A step of producer `k` on local variables. -/
theorem local_add (h : s.Coupled) {k : Nat} {a : AddThread} (hat : a.At P (s.rings k)) :
    ({ s with adds := Function.update s.adds k a } : Pipeline P).Coupled := by
  refine ⟨fun i => ?_, h.sized, h.bg, h.others, h.batch, h.index⟩
  by_cases hi : i = k
  · subst hi
    simpa only [Function.update_self] using hat
  · simpa only [Function.update_of_ne hi] using h.adds i

theorem add_step (h : s.Coupled) (hreach : (pipeline P).Reachable s) {i : Nat}
    {tsc : BitVec 64} (hmove : s.AddMoves i tsc s') : s'.Coupled := by
  have hring := ring_reachable hreach i
  have hat := h.adds i
  have hsized := h.sized i
  cases hmove with
  | enter hpc hlt =>
      simp only [AddThread.At, hpc] at hat
      exact h.local_add ⟨hat.1, hat.2.1, hlt⟩
  | stop hpc hge =>
      simp only [AddThread.At, hpc] at hat
      exact h.local_add hat
  | reserve hpc hr =>
      simp only [AddThread.At, hpc] at hat
      obtain ⟨hidle, hlen, hlt⟩ := hat
      obtain ⟨hp, hpub⟩ := reserve_calls hidle (Config.producerStep_moves _ _ hr)
      rw [← hpub] at hlen hsized
      exact h.produce hr ⟨hp, hlen, hlt⟩ hsized
  | reserving hpc hr hnot =>
      simp only [AddThread.At, hpc] at hat
      obtain ⟨⟨p, hrun, hp⟩, hlen, hlt⟩ := hat
      rcases reserve_steps hring hrun hp (Config.producerStep_moves _ _ hr) with
        ⟨hnext | ⟨q, v, hres⟩, hpub⟩
      · rw [← hpub] at hlen hsized
        have hsame := h.produce hr (a := s.adds i)
          (by simp only [AddThread.At, hpc]; exact ⟨hnext, hlen, hlt⟩) hsized
        rwa [Function.update_eq_self] at hsame
      · exact absurd hres (hnot q v)
  | reserved hpc hr hres =>
      simp only [AddThread.At, hpc] at hat
      obtain ⟨⟨p, hrun, hp⟩, hlen, hlt⟩ := hat
      obtain ⟨-, hpub⟩ := reserve_steps hring hrun hp (Config.producerStep_moves _ _ hr)
      rw [← hpub] at hlen hsized
      exact h.produce hr ⟨⟨_, _, hres⟩, hlen, hlt⟩ hsized
  | entrySize hpc hr =>
      simp only [AddThread.At, hpc] at hat
      obtain ⟨⟨q, v, hres⟩, hlen, hlt⟩ := hat
      obtain ⟨hp, hpub⟩ := write_steps hres (Config.producerStep_moves _ _ hr)
      rw [← hpub] at hlen hsized
      exact h.produce hr ⟨⟨_, _, hp, P.entrySize_ge i _⟩, hlen, hlt⟩ hsized
  | fmtId hpc hr | timestamp hpc hr =>
      simp only [AddThread.At, hpc] at hat
      obtain ⟨⟨q, v, hres, hv⟩, hlen, hlt⟩ := hat
      obtain ⟨hp, hpub⟩ := write_steps hres (Config.producerStep_moves _ _ hr)
      rw [← hpub] at hlen hsized
      exact h.produce hr ⟨⟨_, _, hp, hv⟩, hlen, hlt⟩ hsized
  | finish hpc hr =>
      simp only [AddThread.At, hpc] at hat
      obtain ⟨⟨q, v, hres, hv⟩, hlen, hlt⟩ := hat
      obtain ⟨⟨p, hp⟩, hpub⟩ := finish_calls hres (Config.producerStep_moves _ _ hr)
      rw [← hpub] at hlen hsized
      refine h.produce hr ⟨⟨[v], p, hp, fun e he => ?_, ?_⟩, hlt⟩ hsized
      · obtain rfl := List.mem_singleton.mp he
        exact hv
      · rw [List.length_append, hlen]; rfl
  | @finishing r hpc hr hnot =>
      simp only [AddThread.At, hpc] at hat
      obtain ⟨⟨offer, p, hrun, hoffer, hlen⟩, hlt⟩ := hat
      rcases finish_steps hring hrun (Config.producerStep_moves _ _ hr) with
        ⟨offer', p', hp, hpub⟩ | ⟨hidle, -⟩
      · have hall : ∀ e ∈ r.shared.published ++ offer', e.Sized := by
          rw [hpub]
          exact fun e he => (List.mem_append.mp he).elim (hsized e) (hoffer e)
        rw [← hpub] at hlen
        have hsame := h.produce hr (a := s.adds i)
          (by
            simp only [AddThread.At, hpc]
            exact ⟨⟨offer', p', hp, fun e he => hall e (List.mem_append_right _ he), hlen⟩, hlt⟩)
          fun e he => hall e (List.mem_append_left _ he)
        rwa [Function.update_eq_self] at hsame
      · exact absurd hidle hnot
  | finished hpc hr hidle =>
      simp only [AddThread.At, hpc] at hat
      obtain ⟨⟨offer, p, hrun, hoffer, hlen⟩, hlt⟩ := hat
      rcases finish_steps hring hrun (Config.producerStep_moves _ _ hr) with
        ⟨offer', p', hp, -⟩ | ⟨-, hpub⟩
      · rw [hidle] at hp
        cases hp
      · rw [← hpub] at hlen
        refine h.produce hr ⟨hidle, hlen, hlt⟩ ?_
        intro e he
        rw [hpub] at he
        exact (List.mem_append.mp he).elim (hsized e) (hoffer e)

/-! ### Steps of `RingBufBG` -/

/-- A step of `RingBufBG` that leaves the producers and what they published
as they are. -/
theorem of_bg (h : s.Coupled) (hadds : s'.adds = s.adds)
    (hrings : ∀ i, (s'.rings i).producer = (s.rings i).producer
      ∧ (s'.rings i).shared.published = (s.rings i).shared.published)
    (hat : s'.bg.At P s'.ring) (hothers : ∀ i, i ≠ s'.bg.index → (s'.rings i).consumer = .idle)
    (hbatch : s'.bg.pc.holdsBatch = true → s'.bg.n.toNat ≤ P.batchSizePop)
    (hindex : s'.bg.pc.atRing = true → s'.bg.index < P.threadNum) : s'.Coupled where
  adds i := by
    rw [hadds]
    exact (h.adds i).congr (hrings i).1 (hrings i).2
  sized i := by
    rw [(hrings i).2]
    exact h.sized i
  bg := hat
  others := hothers
  batch := hbatch
  index := hindex

theorem setRing_others (h : s.Coupled) (r : Config (UncompressedEntry P.argNum)) (i : Nat)
    (hi : i ≠ s.bg.index) : (s.setRing r i).consumer = .idle := by
  rw [setRing, Function.update_of_ne hi]
  exact h.others i hi

/-- Once the ring it is at is idle, every ring is. -/
theorem setRing_idle (h : s.Coupled) {r : Config (UncompressedEntry P.argNum)}
    (hr : r.consumer = .idle) (i : Nat) : (s.setRing r i).consumer = .idle := by
  by_cases hi : i = s.bg.index
  · subst hi
    rw [setRing, Function.update_self]
    exact hr
  · exact h.setRing_others r i hi

theorem all_idle (h : s.Coupled) (hidle : s.ring.consumer = .idle) (i : Nat) :
    (s.rings i).consumer = .idle := by
  by_cases hi : i = s.bg.index
  · subst hi
    exact hidle
  · exact h.others i hi

/-- A step of the consumer that leaves `RingBufBG` at `bg`, at the same ring. -/
theorem consume (h : s.Coupled) {c : ConsumerCmd (UncompressedEntry P.argNum)}
    {r : Config (UncompressedEntry P.argNum)} {bg : RingBufBG} {pool : Pool (Record P.argNum)}
    {drainIters : Nat} (hr : s.ConsumerSteps c r) (hsame : bg.index = s.bg.index) (hat : bg.At P r)
    (hbatch : bg.pc.holdsBatch = true → bg.n.toNat ≤ P.batchSizePop)
    (hlt : s.bg.index < P.threadNum) :
    (⟨s.setRing r, s.adds, bg, pool, drainIters⟩ : Pipeline P).Coupled := by
  refine h.of_bg rfl (setRing_frame hr) ?_ (fun i hi => ?_) hbatch fun _ => ?_
  · simp only [ring, setRing, hsame, Function.update_self]
    exact hat
  · exact h.setRing_others r i (hsame ▸ hi)
  · simpa only [hsame] using hlt

/-- A batch is not cut short by the conversion to `int`. -/
theorem toInt_n (h : s.Coupled) (hpc : s.bg.pc.holdsBatch = true) :
    s.bg.n.toInt = s.bg.n.toNat := by
  have hle := h.batch hpc
  have hlt := P.batch_lt
  rw [BitVec.toInt_eq_toNat_cond, if_pos (by omega)]

theorem bg_step (h : s.Coupled) (hreach : (pipeline P).Reachable s) (hmove : s.BgMoves s') :
    s'.Coupled := by
  have hring := ring_reachable hreach s.bg.index
  have hat := h.bg
  cases hmove with
  | take hpc _ | leave hpc _ | iterate hpc _ | idleIter hpc | drainIter hpc | flushIter hpc
  | flush hpc | exitFlag hpc =>
      -- The thread holds nothing of any ring before the step, nor after it.
      simp only [RingBufBG.At, hpc] at hat
      exact h.of_bg rfl (fun _ => ⟨rfl, rfl⟩) hat h.others (by simp) (by simp)
  | enter hpc _ | tally hpc =>
      simp only [RingBufBG.At, hpc] at hat
      exact h.of_bg rfl (fun _ => ⟨rfl, rfl⟩) (h.all_idle hat _) (fun i _ => h.all_idle hat i)
        (by simp) (by simp)
  | @peek r hpc hlt hr =>
      simp only [RingBufBG.At, hpc] at hat
      obtain ⟨hnext, -⟩ := peek_calls hat (Config.consumerStep_moves _ _ hr)
      exact h.consume hr rfl hnext (by simp) hlt
  | @peeking r hpc hr hnot =>
      simp only [RingBufBG.At, hpc] at hat
      obtain ⟨p, hrun, hp⟩ := hat
      rcases peek_steps hring hrun hp (Config.consumerStep_moves _ _ hr) with
        ⟨hnext | ⟨n, q, hpeeked, -⟩, -⟩
      · refine h.consume hr rfl ?_ h.batch (h.index (by rw [hpc]; rfl))
        simpa only [RingBufBG.At, hpc] using hnext
      · exact absurd hpeeked (hnot n q [])
  | @peeked r n q taken hpc hr hpeeked =>
      simp only [RingBufBG.At, hpc] at hat
      obtain ⟨p, hrun, hp⟩ := hat
      rcases peek_steps hring hrun hp (Config.consumerStep_moves _ _ hr) with
        ⟨⟨p', hnext, -⟩ | ⟨n', q', hnext, hn⟩, -⟩
      · rw [hpeeked] at hnext
        cases hnext
      · obtain ⟨rfl, rfl, rfl⟩ := Consumer.peeked.inj (hpeeked.symm.trans hnext)
        have hle := Nat.mod_le P.batchSizePop (2 ^ 32)
        rw [BitVec.toNat_ofNat] at hn
        exact h.consume hr rfl ⟨q, hnext⟩ (fun _ => Nat.le_trans hn hle)
          (h.index (by rw [hpc]; rfl))
  | @skip r hpc _ hr =>
      simp only [RingBufBG.At, hpc] at hat
      obtain ⟨p, hpeeked⟩ := hat
      obtain ⟨hidle, -⟩ := drop_steps hpeeked (Config.consumerStep_moves _ _ hr)
      exact h.of_bg rfl (setRing_frame hr) (h.setRing_idle hidle _)
        (fun i _ => h.setRing_idle hidle i) (by simp) (by simp)
  | batch hpc _ =>
      simp only [RingBufBG.At, hpc] at hat
      obtain ⟨p, hpeeked⟩ := hat
      have hn := h.toInt_n (by rw [hpc]; rfl)
      exact h.of_bg rfl (fun _ => ⟨rfl, rfl⟩)
        ⟨⟨p, [], hpeeked, Int.zero_add _⟩, hn ▸ Int.natCast_nonneg _⟩ h.others
        (fun _ => h.batch (by rw [hpc]; rfl)) fun _ => h.index (by rw [hpc]; rfl)
  | copy hpc hpos =>
      simp only [RingBufBG.At, hpc] at hat
      exact h.of_bg rfl (fun _ => ⟨rfl, rfl⟩) ⟨hat.1, hpos⟩ h.others
        (fun _ => h.batch (by rw [hpc]; rfl)) fun _ => h.index (by rw [hpc]; rfl)
  | @release r hpc hpos hr =>
      simp only [RingBufBG.At, hpc] at hat
      obtain ⟨⟨p, taken, hpeeked, hcount⟩, hge⟩ := hat
      have hn := h.toInt_n (by rw [hpc]; rfl)
      obtain ⟨hnext, -⟩ := consume_calls hpeeked (k := s.bg.n) (by omega)
        (Config.consumerStep_moves _ _ hr)
      exact h.consume hr rfl hnext (fun _ => h.batch (by rw [hpc]; rfl))
        (h.index (by rw [hpc]; rfl))
  | fits hpc | full hpc | fmtId hpc | timestamp hpc | add12 hpc =>
      -- An entry is being encoded, and its slot is read at the last store only.
      simp only [RingBufBG.At, hpc] at hat
      exact h.of_bg rfl (fun _ => ⟨rfl, rfl⟩) hat h.others
        (fun _ => h.batch (by rw [hpc]; rfl)) fun _ => h.index (by rw [hpc]; rfl)
  | @append e r pool hpc _ hr _ =>
      simp only [RingBufBG.At, hpc] at hat
      obtain ⟨⟨p, taken, hpeeked, hcount⟩, hpos⟩ := hat
      obtain ⟨hnext, -, -⟩ := read_steps hpeeked (Config.consumerStep_moves _ _ hr)
      refine h.consume hr rfl ⟨⟨_, _, hnext, ?_⟩, by simp only; omega⟩
        (fun _ => h.batch (by rw [hpc]; rfl)) (h.index (by rw [hpc]; rfl))
      simp only [List.length_append, List.length_cons, List.length_nil]
      omega
  | swapFull hpc =>
      simp only [RingBufBG.At, hpc] at hat
      exact h.of_bg rfl (fun _ => ⟨rfl, rfl⟩) ⟨hat.1, Int.le_of_lt hat.2⟩ h.others
        (fun _ => h.batch (by rw [hpc]; rfl)) fun _ => h.index (by rw [hpc]; rfl)
  | @consuming r hpc hr hnot =>
      simp only [RingBufBG.At, hpc] at hat
      rcases hat.step (counters_reachable hring) (Config.consumerStep_moves _ _ hr) with
        ⟨hnext | hidle, -⟩
      · refine h.consume hr rfl ?_ h.batch (h.index (by rw [hpc]; rfl))
        simpa only [RingBufBG.At, hpc] using hnext
      · exact absurd hidle hnot
  | @consumed r hpc hr hidle =>
      exact h.consume hr rfl hidle (fun _ => h.batch (by rw [hpc]; rfl))
        (h.index (by rw [hpc]; rfl))

end Coupled

/-! ## Every reachable state -/

theorem coupled {s : Pipeline P} (h : (pipeline P).Reachable s) : s.Coupled := by
  refine h.invariant (I := Coupled) ?_ ?_
  · rintro s ⟨arr, memory, rfl⟩
    exact coupled_main arr memory
  · intro l u u' hreach hu hstep
    cases step_moves hstep with
    | add _ hmove => exact hu.add_step hreach hmove
    | bg hmove => exact hu.bg_step hreach hmove
    | sink _ => exact ⟨hu.adds, hu.sized, hu.bg, hu.others, hu.batch, hu.index⟩

end Pipeline

end LockFreeRingBuf
