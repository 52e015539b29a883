import LockFreeRingBuf.PipelineSteps
import LockFreeRingBuf.SinkPoolRules

/-!
# Ownership of sink buffers in the pipeline

What `SinkPoolRules` says of the pool, for `RingBufBG` and `sinkBufBG`
together.
-/

namespace LockFreeRingBuf

open Bytes Transition

variable {P : Params}

namespace Pipeline

variable {s s' : Pipeline P}

theorem owned (h : (pipeline P).Reachable s) : s.pool.Owned P.cacheBufQueueSize :=
  .of_reachable P.cache_pos (pool_reachable h)

theorem conserved (h : (pipeline P).Reachable s) : s.pool.Conserved :=
  .of_reachable P.cache_pos (pool_reachable h)

theorem logged (h : (pipeline P).Reachable s) : s.pool.Logged :=
  .of_reachable P.cache_pos (pool_reachable h)

theorem file_eq_writes (h : (pipeline P).Reachable s) :
    s.pool.file = s.pool.writes.flatMap Prod.snd :=
  Pool.file_eq_writes (pool_reachable h)

theorem BgMoves.pc_ne_take (h : s.BgMoves s') : s'.bg.pc ≠ .take := by
  cases h with
  | peeking hpc | consuming hpc => simp [hpc]
  | _ => simp

/-- A step on the pool leaves `pBuffer` set; any other leaves it alone. -/
theorem BgMoves.pBuffer_cases (h : s.BgMoves s') :
    s'.pool.pBuffer ≠ none ∨ (s.bg.pc ≠ .take ∧ s'.pool.pBuffer = s.pool.pBuffer) := by
  rcases h.pool_cases with ⟨htake, hsame⟩ | ⟨c, hpool, hexit⟩
  · exact .inr ⟨htake, by rw [hsame]⟩
  · generalize s'.pool = pool at hpool ⊢
    cases Pool.step_moves hpool with
    | store hb | add hb | append hb => exact .inl (by simp [hb])
    | exit => exact .inr ⟨by simp [hexit rfl], rfl⟩
    | _ => exact .inl (by simp)

/-- `pBuffer` is null exactly before the first take. -/
theorem pBuffer_none_iff (h : (pipeline P).Reachable s) :
    s.pool.pBuffer = none ↔ s.bg.pc = .take := by
  refine h.invariant (I := fun s => s.pool.pBuffer = none ↔ s.bg.pc = .take) ?_ ?_
  · rintro s ⟨arr, memory, rfl⟩
    exact ⟨fun _ => rfl, fun _ => rfl⟩
  · intro l u u' _ hu hstep
    cases step_moves hstep with
    | add _ hmove => cases hmove <;> exact hu
    | sink hpool => cases Pool.step_moves hpool <;> exact hu
    | bg hmove =>
        refine iff_of_false ?_ hmove.pc_ne_take
        rcases hmove.pBuffer_cases with hset | ⟨hpc, hsame⟩
        · exact hset
        · rw [hsame]
          exact mt hu.mp hpc

/-- The buffers that a step touches: those it stores into or resets, the one it
writes to the file and the one it deletes. -/
structure Touches (s : Pipeline P) (l : PipelineLabel) (s' : Pipeline P) : Prop where
  changed : ∀ b ∈ s.pool.places, s'.pool.heap b ≠ s.pool.heap b →
    (l = .bg ∧ s.pool.pBuffer = some b) ∨ (l = .sink ∧ s.pool.sink = .reset b)
  written : s'.pool.writes = s.pool.writes
    ∨ ∃ b, l = .sink ∧ s.pool.sink = .write b
      ∧ s'.pool.writes = s.pool.writes ++ [(b, (s.pool.heap b).contents)]
  deleted : s'.pool.deleted = s.pool.deleted
    ∨ ∃ b, l = .sink ∧ s.pool.sink = .delete b ∧ s'.pool.deleted = s.pool.deleted ++ [b]

theorem touches_of_pool_eq (l : PipelineLabel) (h : s'.pool = s.pool) : s.Touches l s' where
  changed b _ hne := absurd (by rw [h]) hne
  written := .inl (by rw [h])
  deleted := .inl (by rw [h])

theorem touches_of_sink {pool : Pool (Record P.argNum)}
    (hmove : s.pool.Moves P.cacheBufQueueSize .sink pool) :
    s.Touches .sink { s with pool } where
  changed b _ hne := by
    refine .inr ⟨rfl, ?_⟩
    by_contra hreset
    exact hne (hmove.sink_frame hreset).1
  written := by
    cases hmove with
    | write hsink => exact .inr ⟨_, rfl, hsink, rfl⟩
    | _ => exact .inl rfl
  deleted := by
    cases hmove with
    | delete hsink => exact .inr ⟨_, rfl, hsink, rfl⟩
    | _ => exact .inl rfl

/-- `RingBufBG` touches the buffer in `pBuffer` only, and `sinkBufBG` the one that
it holds. -/
theorem touches (h : (pipeline P).Reachable s) {l : PipelineLabel}
    (hstep : Pipeline.step l s = some s') : s.Touches l s' := by
  cases step_moves hstep with
  | add _ hmove => cases hmove <;> exact touches_of_pool_eq _ rfl
  | sink hpool => exact touches_of_sink (Pool.step_moves hpool)
  | bg hmove =>
      rcases hmove.pool_cases with ⟨-, hsame⟩ | ⟨c, hpool, -⟩
      · exact touches_of_pool_eq _ hsame
      · have hwriter := Pool.step_moves hpool
        obtain ⟨hwrites, hdeleted⟩ := hwriter.writer_keeps
        refine ⟨fun b hb hne => .inl ⟨rfl, ?_⟩, .inl hwrites, .inl hdeleted⟩
        by_contra hother
        exact hne (hwriter.writer_frame (owned h) hb hother).1

end Pipeline

/-- Every buffer allocated so far is in exactly one place, exactly once, so
that the places add up; cached buffers are empty; the buffer being filled is
not the one the sink holds; and a deleted buffer is nowhere else, so it is
neither used nor deleted again. A step touches no other buffer than the one that
its thread has: `RingBufBG` stores into `pBuffer`, `sinkBufBG` writes, resets and
deletes the one it has popped. -/
theorem buffer_ownership {s : Pipeline P} (h : (pipeline P).Reachable s) :
    s.pool.places.Perm (List.range (P.cacheBufQueueSize + s.pool.allocNum))
      ∧ P.cacheBufQueueSize + s.pool.allocNum
        = s.pool.pBuffer.toList.length + s.pool.sinkBufQueue.length + s.pool.sink.holds.length
          + s.pool.cacheBufQueue.length + s.pool.deleted.length
      ∧ (∀ b ∈ s.pool.cacheBufQueue, (s.pool.heap b).length = 0#32)
      ∧ (∀ b, s.pool.pBuffer = some b → b ∉ s.pool.sink.holds)
      ∧ s.pool.deleted.Nodup
      ∧ (∀ b ∈ s.pool.deleted, s.pool.pBuffer ≠ some b ∧ b ∉ s.pool.sinkBufQueue
          ∧ b ∉ s.pool.sink.holds ∧ b ∉ s.pool.cacheBufQueue)
      ∧ ∀ l s', (pipeline P).step l s = some s' → s.Touches l s' := by
  have howned := Pipeline.owned h
  have hcached := (Pipeline.conserved h).cached
  refine ⟨howned.places_perm, ?_, fun b hb => ?_, fun b hb => (howned.pBuffer_unique hb).2.1,
    howned.deleted_nodup, fun b hb => howned.deleted_unique hb,
    fun l s' hstep => Pipeline.touches h hstep⟩
  · have hlength := howned.places_perm.length_eq
    simp only [Pool.places, List.length_append, List.length_range] at hlength
    omega
  · rw [SinkBuffer.length, (hcached b hb).1]
    rfl

/-- The sink holds the first buffer while the second is being filled. -/
theorem buffer_ownership_tiny :
    let s := Pipeline.tinyAfter [(.add 0 5#64, 27), (.bg, 25), (.sink, 3)]
    s.pool.pBuffer = some 1 ∧ s.pool.sink.holds = [0] ∧ s.pool.places.Perm (List.range 2)
      ∧ s.pool.deleted.Nodup := by
  intro s
  have hreach : (pipeline .tiny).Reachable s := Pipeline.tinyAfter_reachable _
  obtain ⟨hperm, -, -, -, hnodup, -⟩ := buffer_ownership hreach
  have halloc : s.pool.allocNum = 1 := by decide +kernel
  rw [halloc] at hperm
  exact ⟨by decide +kernel, by decide +kernel, hperm, hnodup⟩

/-- The unlocked size tests still hold when they are acted on: nothing is
popped from an empty `sinkBufQueue`, the first take finds a buffer, and the
cache never holds more than `CacheBufQueueSize`. -/
theorem pool_checks_hold {s : Pipeline P} (h : (pipeline P).Reachable s) :
    (s.pool.sink = .pop → s.pool.sinkBufQueue ≠ [])
      ∧ (s.bg.pc = .take → s.pool.cacheBufQueue ≠ [])
      ∧ s.pool.cacheBufQueue.length ≤ P.cacheBufQueueSize :=
  ⟨(Pipeline.owned h).popReady,
    fun hpc => (Pipeline.owned h).takeReady ((Pipeline.pBuffer_none_iff h).mpr hpc),
    (Pipeline.owned h).cache_le⟩

/-- The sink has passed its size test and is about to pop. -/
theorem pool_checks_hold_tiny :
    let s := Pipeline.tinyAfter [(.add 0 5#64, 27), (.bg, 25), (.sink, 2)]
    s.pool.sink = .pop ∧ s.pool.sinkBufQueue ≠ [] ∧ s.pool.cacheBufQueue.length ≤ 1 := by
  intro s
  have hreach : (pipeline .tiny).Reachable s := Pipeline.tinyAfter_reachable _
  have hpop : s.pool.sink = .pop := by decide +kernel
  obtain ⟨hfront, -, hle⟩ := pool_checks_hold hreach
  exact ⟨hpop, hfront hpop, hle⟩

end LockFreeRingBuf
