import LockFreeRingBuf.PipelineBuffers
import LockFreeRingBuf.PipelineDrain

/-!
# Stores into the sink buffers

`SinkBuffer::append` and `add` check nothing; what keeps `cur_` inside the
array is the one test of `avail()` against the entry's own `entrySize`.
`Roomy` says that every `cur_` is inside, and that from the test on there
is room for what of the record is still to be stored.
-/

namespace LockFreeRingBuf

open Bytes Resumption Transition

variable {P : Params}

/-- The bytes of the current record that `cur_` has not passed yet. -/
def RingBufBG.unstored (P : Params) (bg : RingBufBG) : Nat :=
  match bg.pc with
  | .fmtId => 12 + P.argNum
  | .timestamp => 12 + P.argNum
  | .add12 => 12 + P.argNum
  | .append => P.argNum
  | _ => 0

/-! ## One step of the pool -/

section

variable {R : Type} {CacheBufQueueSize SIZE : Nat} {s s' : Pool R} {l : PoolLabel R}

theorem update_fits {heap : Nat → SinkBuffer} (h : ∀ b, (heap b).Fits SIZE) {b : Nat}
    {buf : SinkBuffer} (hbuf : buf.Fits SIZE) (x : Nat) :
    (Function.update heap b buf x).Fits SIZE := by
  by_cases hx : x = b
  · subst hx
    rw [Function.update_self]
    exact hbuf
  · rw [Function.update_of_ne hx]
    exact h x

theorem update_data {heap : Nat → SinkBuffer} {b i : Nat} {buf : SinkBuffer}
    (h : buf.data_ i = (heap b).data_ i) (x : Nat) :
    (Function.update heap b buf x).data_ i = (heap x).data_ i := by
  by_cases hx : x = b
  · subst hx
    rw [Function.update_self]
    exact h
  · rw [Function.update_of_ne hx]

/-- A step whose stores are inside the array changes nothing behind it. -/
theorem Pool.Moves.behind (hmove : s.Moves CacheBufQueueSize l s')
    (hstore : ∀ b off bs, l = .writer (.store off bs) → s.pBuffer = some b →
      off + bs.length ≤ SIZE)
    (happend : ∀ b bs r, l = .writer (.append bs r) → s.pBuffer = some b →
      (s.heap b).cur_ + bs.length ≤ SIZE)
    (b : Nat) {i : Nat} (hi : SIZE ≤ i) : (s'.heap b).data_ i = (s.heap b).data_ i := by
  cases hmove with
  | store hb =>
      have hend := hstore _ _ _ rfl hb
      exact update_data (writeAt_of_disjoint (.inr (Nat.le_trans hend hi))) b
  | append hb =>
      have hend := happend _ _ _ rfl hb
      exact update_data (writeAt_of_disjoint (.inr (Nat.le_trans hend hi))) b
  | add | grow | reset => exact update_data (by rfl) b
  | _ => rfl

/-- Only `add` and `append` move a `cur_` on. -/
theorem Pool.Moves.fits (hmove : s.Moves CacheBufQueueSize l s') (hpos : 0 < SIZE)
    (h : ∀ b, (s.heap b).Fits SIZE) (hadd : ∀ len, l ≠ .writer (.add len))
    (happend : ∀ bs r, l ≠ .writer (.append bs r)) (b : Nat) : (s'.heap b).Fits SIZE := by
  cases hmove with
  | @store b' off bs hb =>
      have hstore : ((s.heap b').store off bs).Fits SIZE := h b'
      exact update_fits h hstore b
  | @add b len hb => exact absurd rfl (hadd len)
  | @append b bs r hb => exact absurd rfl (happend bs r)
  | grow hb hcache =>
      have hfresh : (SinkBuffer.construct
        (s.heap (CacheBufQueueSize + s.allocNum)).data_).Fits SIZE := hpos
      exact update_fits h hfresh b
  | @reset b' hsink =>
      have hreset : (s.heap b').reset.Fits SIZE := hpos
      exact update_fits h hreset b
  | _ => exact h b

end

namespace Pipeline

variable {s s' : Pipeline P}

/-! ## The entry being copied -/

/-- The entry under the pointer is the next one its ring gives up. -/
theorem entry_published (h : (ringSystem (element P.argNum) P.ringBufSize).Reachable s.ring)
    (hat : s.bg.Copies P s.ring) (hpos : 0 < s.bg.count) {e : UncompressedEntry P.argNum}
    (he : s.stageBufPop = some e) :
    s.ring.shared.published[s.ring.collected.length]? = some e := by
  obtain ⟨p, taken, hpeeked, hcount⟩ := hat
  obtain ⟨rfl, hn, -, hslots⟩ := peeked_reachable h hpeeked
  have hlt := RingRun.lt_toNat_of_lt_toInt (k := taken.length) (n := s.bg.n) (by omega)
  simp only [stageBufPop, hpeeked, Option.some.injEq] at he
  rw [← he, Config.collected, List.length_append, hpeeked]
  exact hslots _ (Nat.le_add_right _ _)
    (Nat.lt_of_lt_of_le (Nat.add_lt_add_left hlt _) hn)

theorem entry_sized (h : (pipeline P).Reachable s) (hat : s.bg.Copies P s.ring)
    (hpos : 0 < s.bg.count) {e : UncompressedEntry P.argNum} (he : s.stageBufPop = some e) :
    e.Sized :=
  (coupled h).sized _ e (List.mem_of_getElem? (entry_published (ring_reachable h _) hat hpos he))

/-! ## Room for the record -/

structure Roomy (s : Pipeline P) : Prop where
  fits : ∀ b, (s.pool.heap b).Fits P.sinkBufferSize
  room : ∀ b, s.pool.pBuffer = some b →
    (s.pool.heap b).cur_ + s.bg.unstored P < P.sinkBufferSize

namespace Roomy

/-- Where nothing of a record is to be stored, `cur_` inside is room enough. -/
theorem of_fits (h : ∀ b, (s.pool.heap b).Fits P.sinkBufferSize) (hpc : s.bg.unstored P = 0) :
    s.Roomy where
  fits := h
  room b _ := by
    rw [hpc]
    exact h b

theorem bg_step (h : s.Roomy) (hreach : (pipeline P).Reachable s) (hmove : s.BgMoves s') :
    s'.Roomy := by
  have hpos := P.size_pos
  cases hmove with
  | take _ hpool | swapFull _ hpool | flush _ hpool | exitFlag _ hpool =>
      exact of_fits ((Pool.step_moves hpool).fits hpos h.fits (by simp) (by simp)) rfl
  | @fits e b hpc he hb hlt =>
      have hat := (coupled hreach).bg
      simp only [RingBufBG.At, hpc] at hat
      have hsized : 12 + P.argNum ≤ e.entrySize.toNat := entry_sized hreach hat.1 hat.2 he
      rw [BitVec.lt_def, SinkBuffer.avail_toNat P.size_lt (h.fits b)] at hlt
      refine ⟨h.fits, fun b' hb' => ?_⟩
      obtain rfl := Option.some.inj (hb.symm.trans hb')
      simp only [RingBufBG.unstored]
      omega
  | fmtId hpc _ _ hpool | timestamp hpc _ _ hpool =>
      refine ⟨(Pool.step_moves hpool).fits hpos h.fits (by simp) (by simp), fun b' hb' => ?_⟩
      cases Pool.step_moves hpool with
      | store hb =>
          obtain rfl := Option.some.inj (hb.symm.trans hb')
          have hroom := h.room _ hb
          simp only [RingBufBG.unstored, hpc] at hroom
          simp only [Function.update_self]
          exact hroom
  | add12 hpc hpool =>
      cases Pool.step_moves hpool with
      | @add b _ hb =>
          have hroom := h.room b hb
          simp only [RingBufBG.unstored, hpc] at hroom
          have hnext : (s.pool.heap b).cur_ + 12 + P.argNum < P.sinkBufferSize := by omega
          refine ⟨update_fits h.fits (Nat.lt_of_le_of_lt (Nat.le_add_right _ _) hnext),
            fun b' hb' => ?_⟩
          obtain rfl := Option.some.inj (hb.symm.trans hb')
          simp only [Function.update_self]
          exact hnext
  | @append e _ _ hpc _ _ hpool =>
      cases Pool.step_moves hpool with
      | @append b _ _ hb =>
          have hroom := h.room b hb
          simp only [RingBufBG.unstored, hpc] at hroom
          refine of_fits (update_fits h.fits ?_) rfl
          simpa only [SinkBuffer.Fits, SinkBuffer.append, Vector.length_toList] using hroom
  | peeking hpc | consuming hpc => exact of_fits h.fits (by simp only [RingBufBG.unstored, hpc])
  | _ => exact of_fits h.fits rfl

/-- `sinkBufBG` moves no `cur_` but that of the buffer it resets. -/
theorem sink_step (h : s.Roomy) (hreach : (pipeline P).Reachable s)
    {pool : Pool (Record P.argNum)} (hmove : s.pool.Moves P.cacheBufQueueSize .sink pool) :
    ({ s with pool } : Pipeline P).Roomy := by
  refine ⟨hmove.fits P.size_pos h.fits (by simp) (by simp), fun b hb => ?_⟩
  have hb' : s.pool.pBuffer = some b := hmove.sink_pBuffer.symm.trans hb
  obtain ⟨hheap, -⟩ := hmove.sink_frame ((owned hreach).current_not_reset hb')
  simp only [hheap]
  exact h.room b hb'

end Roomy

theorem roomy (h : (pipeline P).Reachable s) : s.Roomy := by
  refine h.invariant (I := Roomy) ?_ ?_
  · rintro s ⟨arr, memory, rfl⟩
    exact .of_fits (fun _ => P.size_pos) rfl
  · intro l u u' hreach hu hstep
    cases step_moves hstep with
    | add _ hmove =>
        obtain ⟨-, hpool, hbg⟩ := hmove.frame
        exact ⟨by rw [hpool]; exact hu.fits, by rw [hpool, hbg]; exact hu.room⟩
    | bg hmove => exact hu.bg_step hreach hmove
    | sink hpool => exact hu.sink_step hreach (Pool.step_moves hpool)

/-- The stores of a record end inside the array. -/
theorem Roomy.stores_end (h : s.Roomy) {b : Nat} (hb : s.pool.pBuffer = some b) :
    (s.bg.pc = .fmtId → (s.pool.heap b).current + 4 ≤ P.sinkBufferSize)
      ∧ (s.bg.pc = .timestamp → (s.pool.heap b).current + 4 + 8 ≤ P.sinkBufferSize)
      ∧ (s.bg.pc = .append → (s.pool.heap b).current + P.argNum ≤ P.sinkBufferSize) := by
  have hroom := h.room b hb
  unfold RingBufBG.unstored at hroom
  unfold SinkBuffer.current
  refine ⟨fun hpc => ?_, fun hpc => ?_, fun hpc => ?_⟩
  · simp only [hpc] at hroom
    omega
  · simp only [hpc] at hroom
    omega
  · simp only [hpc] at hroom
    omega

/-- No step of any thread changes a byte behind the array of a buffer. -/
theorem Roomy.behind (h : s.Roomy) {l : PipelineLabel} (hstep : Pipeline.step l s = some s')
    (b : Nat) {i : Nat} (hi : P.sinkBufferSize ≤ i) :
    (s'.pool.heap b).data_ i = (s.pool.heap b).data_ i := by
  cases step_moves hstep with
  | add _ hmove =>
      obtain ⟨-, hpool, -⟩ := hmove.frame
      rw [hpool]
  | sink hpool => exact (Pool.step_moves hpool).behind nofun nofun b hi
  | bg hmove =>
      cases hmove with
      | @fmtId e b' pool hpc he hb hpool =>
          refine (Pool.step_moves hpool).behind ?_ nofun b hi
          rintro b₁ off bs hl hb₁
          cases hl
          obtain rfl := Option.some.inj (hb.symm.trans hb₁)
          rw [littleEndian_length]
          exact (h.stores_end hb).1 hpc
      | @timestamp e b' pool hpc he hb hpool =>
          refine (Pool.step_moves hpool).behind ?_ nofun b hi
          rintro b₁ off bs hl hb₁
          cases hl
          obtain rfl := Option.some.inj (hb.symm.trans hb₁)
          rw [littleEndian_length]
          exact (h.stores_end hb).2.1 hpc
      | append hpc he hr hpool =>
          refine (Pool.step_moves hpool).behind nofun ?_ b hi
          rintro b₁ bs r hl hb₁
          cases hl
          rw [Vector.length_toList]
          exact (h.stores_end hb₁).2.2 hpc
      | take _ hpool | add12 _ hpool | swapFull _ hpool | flush _ hpool | exitFlag _ hpool =>
          exact (Pool.step_moves hpool).behind nofun nofun b hi
      | _ => rfl

end Pipeline

/-- Whatever sizes the producers announce, as long as no record is larger
than its `entrySize`: every `cur_` stays inside its array, so that
`avail()` is positive, its cast to `unsigned` is no larger than the
array, and the zero of `debugString` goes inside; so does each store of
`fmtId`, `timestamp` and `argData`, and no step of any thread changes a byte
behind the array. -/
theorem sink_buffer_never_overrun {s : Pipeline P} (h : (pipeline P).Reachable s) :
    (∀ b, (s.pool.heap b).cur_ < P.sinkBufferSize
        ∧ 1 ≤ ((s.pool.heap b).avail P.sinkBufferSize).toInt
        ∧ (((s.pool.heap b).avail P.sinkBufferSize).toNat : Int)
          = ((s.pool.heap b).avail P.sinkBufferSize).toInt
        ∧ (s.pool.heap b).length.toInt + ((s.pool.heap b).avail P.sinkBufferSize).toInt
          = P.sinkBufferSize
        ∧ ∀ i, P.sinkBufferSize ≤ i →
          (s.pool.heap b).debugString.data_ i = (s.pool.heap b).data_ i)
      ∧ (∀ b, s.pool.pBuffer = some b →
        (s.bg.pc = .fmtId → (s.pool.heap b).current + 4 ≤ P.sinkBufferSize)
        ∧ (s.bg.pc = .timestamp → (s.pool.heap b).current + 4 + 8 ≤ P.sinkBufferSize)
        ∧ (s.bg.pc = .append → (s.pool.heap b).current + P.argNum ≤ P.sinkBufferSize))
      ∧ ∀ l s', (pipeline P).step l s = some s' → ∀ b i, P.sinkBufferSize ≤ i →
        (s'.pool.heap b).data_ i = (s.pool.heap b).data_ i := by
  have hroomy := Pipeline.roomy h
  have hsize := P.size_lt
  refine ⟨fun b => ?_, fun b hb => hroomy.stores_end hb,
    fun l s' hstep b i hi => hroomy.behind hstep b hi⟩
  have hlt : (s.pool.heap b).cur_ < P.sinkBufferSize := hroomy.fits b
  have hlength := SinkBuffer.length_toInt hsize (hroomy.fits b)
  have havail := SinkBuffer.avail_toInt hsize (hroomy.fits b)
  have hcast := SinkBuffer.avail_toNat hsize (hroomy.fits b)
  refine ⟨hlt, by omega, by omega, by omega, fun i hi => ?_⟩
  exact writeAt_of_disjoint (.inr (Nat.le_trans hlt hi))

/-- The first record of the tiny pipeline passes the test with one byte to
spare, and is stored. -/
theorem sink_buffer_never_overrun_tiny :
    let s := Pipeline.tinyAfter [(.add 0 5#64, 27), (.bg, 11)]
    s.bg.pc = .timestamp ∧ s.pool.pBuffer = some 0 ∧ (s.pool.heap 0).cur_ < 13
      ∧ (s.pool.heap 0).current + 4 + 8 ≤ 13 := by
  intro s
  have hreach : (pipeline .tiny).Reachable s := Pipeline.tinyAfter_reachable _
  have hpc : s.bg.pc = .timestamp := by decide +kernel
  have hb : s.pool.pBuffer = some 0 := by decide +kernel
  obtain ⟨hfits, hstores, -⟩ := sink_buffer_never_overrun hreach
  exact ⟨hpc, hb, (hfits 0).1, (hstores 0 hb).2.1 hpc⟩

end LockFreeRingBuf
