import LockFreeRingBuf.SinkPool
import Mathlib.Data.List.Perm.Basic

/-!
# Invariants of the buffer pool

`Owned` places every buffer in exactly one place and says what the tests
outside the lock are worth by the time they are acted on: only
`RingBufBG` shrinks the cache and only `sinkBufBG` shrinks
`sinkBufQueue`, so the other thread can only make a passed test truer.
`Conserved` follows the records, and `Logged` the pushes, through the
cycle of buffers.
-/

namespace LockFreeRingBuf

open Bytes Transition

variable {R : Type} {CacheBufQueueSize : Nat}

/-- The buffer `sinkBufBG` holds. -/
def SinkBufBG.holds : SinkBufBG → List Nat
  | .write b => [b]
  | .reset b => [b]
  | .cacheTest b => [b]
  | .delete b => [b]
  | .pushBack b => [b]
  | _ => []

/-- The buffer `sinkBufBG` has popped and not written. -/
def SinkBufBG.unwritten : SinkBufBG → List Nat
  | .write b => [b]
  | _ => []

/-- The buffer `sinkBufBG` has reset and not given back. -/
def SinkBufBG.emptied : SinkBufBG → List Nat
  | .cacheTest b => [b]
  | .delete b => [b]
  | .pushBack b => [b]
  | _ => []

theorem SinkBufBG.unwritten_subset (t : SinkBufBG) : t.unwritten ⊆ t.holds := by
  cases t <;> simp [SinkBufBG.unwritten, SinkBufBG.holds]

theorem SinkBufBG.emptied_subset (t : SinkBufBG) : t.emptied ⊆ t.holds := by
  cases t <;> simp [SinkBufBG.emptied, SinkBufBG.holds]

namespace Pool

/-- All the places where a buffer can be. -/
def places (s : Pool R) : List Nat :=
  s.pBuffer.toList ++ s.sinkBufQueue ++ s.sink.holds ++ s.cacheBufQueue ++ s.deleted

/-! ## Ownership -/

structure Owned (CacheBufQueueSize : Nat) (s : Pool R) : Prop where
  places_perm : s.places.Perm (List.range (CacheBufQueueSize + s.allocNum))
  popReady : s.sink = .pop → s.sinkBufQueue ≠ []
  cache_le : s.cacheBufQueue.length ≤ CacheBufQueueSize
  pushReady : ∀ b, s.sink = .pushBack b → s.cacheBufQueue.length < CacheBufQueueSize
  takeReady : s.pBuffer = none → s.cacheBufQueue ≠ []

namespace Owned

variable {s s' : Pool R} {l : PoolLabel R}

theorem nodup (h : Owned CacheBufQueueSize s) : s.places.Nodup :=
  h.places_perm.nodup_iff.mpr List.nodup_range

theorem allocated (h : Owned CacheBufQueueSize s) {b : Nat} (hb : b ∈ s.places) :
    b < CacheBufQueueSize + s.allocNum :=
  List.mem_range.mp (h.places_perm.mem_iff.mp hb)

theorem places_step (h : Owned CacheBufQueueSize s) (hmove : s.Moves CacheBufQueueSize l s') :
    s'.places.Perm (List.range (CacheBufQueueSize + s'.allocNum)) := by
  refine List.perm_iff_count.mpr ?_
  intro x
  have hcount := List.perm_iff_count.mp h.places_perm x
  simp only [places, List.count_append] at hcount ⊢
  cases hmove with
  | take hnone hcache =>
      simp only [hnone, hcache, Option.toList_none, Option.toList_some, List.count_append,
        List.count_nil] at hcount ⊢
      omega
  | swap hb hcache =>
      simp only [hb, hcache, Option.toList_some, List.count_append] at hcount ⊢
      omega
  | grow hb hcache =>
      simp only [hb, hcache, Option.toList_some, List.count_append, List.count_nil,
        ← Nat.add_assoc, List.range_succ] at hcount ⊢
      omega
  | exitTest hsink | sizeTest hsink | cacheTest hsink =>
      simp only [hsink, SinkBufBG.holds] at hcount
      split <;> exact hcount
  | pop hsink hqueue =>
      simp only [hsink, hqueue, SinkBufBG.holds, List.count_cons, List.count_nil] at hcount ⊢
      omega
  | write hsink | reset hsink => simpa only [hsink, SinkBufBG.holds] using hcount
  | delete hsink | pushBack hsink =>
      simp only [hsink, SinkBufBG.holds, List.count_append, List.count_nil] at hcount ⊢
      omega
  | _ => exact hcount

theorem popReady_step (h : Owned CacheBufQueueSize s) (hmove : s.Moves CacheBufQueueSize l s')
    (hpop : s'.sink = .pop) : s'.sinkBufQueue ≠ [] := by
  cases hmove with
  | swap hb hcache | grow hb hcache =>
      exact List.append_ne_nil_of_right_ne_nil _ (List.cons_ne_nil _ _)
  | sizeTest hsink =>
      simp only at hpop
      split at hpop
      · next hpos => exact List.ne_nil_of_length_pos hpos
      · cases hpop
  | exitTest hsink | cacheTest hsink =>
      simp only at hpop
      split at hpop <;> cases hpop
  | pop | write | reset | delete | pushBack => cases hpop
  | _ => exact h.popReady hpop

theorem cache_le_step (h : Owned CacheBufQueueSize s) (hmove : s.Moves CacheBufQueueSize l s') :
    s'.cacheBufQueue.length ≤ CacheBufQueueSize := by
  have hle := h.cache_le
  cases hmove with
  | take _ hcache | swap _ hcache =>
      rw [hcache, List.length_append] at hle
      exact Nat.le_of_add_right_le hle
  | pushBack hsink =>
      rw [List.length_append]
      exact h.pushReady _ hsink
  | _ => exact hle

theorem pushReady_step (h : Owned CacheBufQueueSize s) (hmove : s.Moves CacheBufQueueSize l s')
    (b : Nat) (hpush : s'.sink = .pushBack b) : s'.cacheBufQueue.length < CacheBufQueueSize := by
  cases hmove with
  | take _ hcache | swap _ hcache =>
      have hlt := h.pushReady b hpush
      rw [hcache, List.length_append] at hlt
      exact Nat.lt_of_le_of_lt (Nat.le_add_right _ _) hlt
  | exitTest hsink | sizeTest hsink =>
      simp only at hpush
      split at hpush <;> cases hpush
  | cacheTest hsink =>
      simp only at hpush
      split at hpush
      · cases hpush
      · next hroom => exact Nat.lt_of_not_ge hroom
  | pop | write | reset | delete | pushBack => cases hpush
  | _ => exact h.pushReady b hpush

theorem takeReady_step (h : Owned CacheBufQueueSize s) (hmove : s.Moves CacheBufQueueSize l s')
    (hnone : s'.pBuffer = none) : s'.cacheBufQueue ≠ [] := by
  cases hmove with
  | take | swap | grow => cases hnone
  | pushBack hsink => exact List.append_ne_nil_of_right_ne_nil _ (List.cons_ne_nil _ _)
  | _ => exact h.takeReady hnone

theorem step (h : Owned CacheBufQueueSize s) (hmove : s.Moves CacheBufQueueSize l s') :
    Owned CacheBufQueueSize s' where
  places_perm := h.places_step hmove
  popReady := h.popReady_step hmove
  cache_le := h.cache_le_step hmove
  pushReady := h.pushReady_step hmove
  takeReady := h.takeReady_step hmove

theorem main (hpos : 0 < CacheBufQueueSize) (memory : Nat → Nat → Byte) :
    Owned CacheBufQueueSize (Pool.main CacheBufQueueSize memory : Pool R) where
  places_perm := by
    simp only [places, Pool.main, SinkBufBG.holds, Option.toList_none, List.nil_append,
      List.append_nil, Nat.add_zero]
    exact List.Perm.refl _
  popReady hpop := by cases hpop
  cache_le := Nat.le_of_eq (List.length_range)
  pushReady b hpush := by cases hpush
  takeReady _ := List.ne_nil_of_length_pos (by rwa [Pool.main, List.length_range])

theorem of_reachable (hpos : 0 < CacheBufQueueSize)
    (h : (poolSystem R CacheBufQueueSize).Reachable s) : Owned CacheBufQueueSize s := by
  refine h.invariant (I := Owned CacheBufQueueSize) ?_ ?_
  · rintro s ⟨memory, rfl⟩
    exact main hpos memory
  · intro l u u' _ hu hstep
    exact hu.step (step_moves hstep)

/-- The buffer `RingBufBG` holds is in no other place. -/
theorem pBuffer_unique (h : Owned CacheBufQueueSize s) {b : Nat} (hb : s.pBuffer = some b) :
    b ∉ s.sinkBufQueue ∧ b ∉ s.sink.holds ∧ b ∉ s.cacheBufQueue ∧ b ∉ s.deleted := by
  have hnodup := h.nodup
  simp only [places, hb, Option.toList_some, List.cons_append, List.nil_append,
    List.nodup_cons, List.mem_append, not_or] at hnodup
  exact ⟨hnodup.1.1.1.1, hnodup.1.1.1.2, hnodup.1.1.2, hnodup.1.2⟩

/-- A buffer that `sinkBufBG` holds is in no other place. -/
theorem holds_unique (h : Owned CacheBufQueueSize s) {b : Nat} (hb : b ∈ s.sink.holds) :
    s.pBuffer ≠ some b ∧ b ∉ s.sinkBufQueue ∧ b ∉ s.cacheBufQueue ∧ b ∉ s.deleted := by
  have hcount := List.nodup_iff_count_le_one.mp h.nodup b
  have hpos := List.count_pos_iff.mpr hb
  simp only [places, List.count_append] at hcount
  refine ⟨fun hp => ?_, fun hq => ?_, fun hc => ?_, fun hd => ?_⟩
  · rw [hp, Option.toList_some, List.count_singleton_self] at hcount
    omega
  · have := List.count_pos_iff.mpr hq
    omega
  · have := List.count_pos_iff.mpr hc
    omega
  · have := List.count_pos_iff.mpr hd
    omega

theorem current_not_reset (h : Owned CacheBufQueueSize s) {b : Nat} (hb : s.pBuffer = some b) :
    s.sink ≠ .reset b := by
  intro hsink
  exact (h.pBuffer_unique hb).2.1 (by rw [hsink]; exact List.mem_singleton_self b)

/-- A deleted buffer is in no other place. -/
theorem deleted_unique (h : Owned CacheBufQueueSize s) {b : Nat} (hb : b ∈ s.deleted) :
    s.pBuffer ≠ some b ∧ b ∉ s.sinkBufQueue ∧ b ∉ s.sink.holds ∧ b ∉ s.cacheBufQueue := by
  have hcount := List.nodup_iff_count_le_one.mp h.nodup b
  have hpos := List.count_pos_iff.mpr hb
  simp only [places, List.count_append] at hcount
  refine ⟨fun hp => (h.pBuffer_unique hp).2.2.2 hb, fun hq => ?_,
    fun hs => (h.holds_unique hs).2.2.2 hb, fun hc => ?_⟩
  · have := List.count_pos_iff.mpr hq
    omega
  · have := List.count_pos_iff.mpr hc
    omega

theorem deleted_nodup (h : Owned CacheBufQueueSize s) : s.deleted.Nodup :=
  h.nodup.sublist (List.sublist_append_right _ _)

/-- A buffer not yet allocated is in no place. -/
theorem fresh (h : Owned CacheBufQueueSize s) : CacheBufQueueSize + s.allocNum ∉ s.places :=
  fun hb => Nat.lt_irrefl _ (h.allocated hb)

end Owned

/-! ## Records and pushes -/

/-- `RingBufBG` changes no buffer but the one it holds. -/
theorem Moves.writer_frame {s s' : Pool R} {c : PoolCmd R}
    (hmove : s.Moves CacheBufQueueSize (.writer c) s') (h : Owned CacheBufQueueSize s) {x : Nat}
    (hx : x ∈ s.places) (hp : s.pBuffer ≠ some x) :
    s'.heap x = s.heap x ∧ s'.records x = s.records x := by
  have hne : ∀ {b}, s.pBuffer = some b → x ≠ b := fun hb heq => hp (heq ▸ hb)
  cases hmove with
  | store hb | add hb => exact ⟨Function.update_of_ne (hne hb) _ _, rfl⟩
  | append hb => exact ⟨Function.update_of_ne (hne hb) _ _, Function.update_of_ne (hne hb) _ _⟩
  | grow hb hcache =>
      have hfresh := ne_of_mem_of_not_mem hx h.fresh
      exact ⟨Function.update_of_ne hfresh _ _, Function.update_of_ne hfresh _ _⟩
  | _ => exact ⟨rfl, rfl⟩

/-- `sinkBufBG` changes no buffer but the one it resets. -/
theorem Moves.sink_frame {s s' : Pool R} (hmove : s.Moves CacheBufQueueSize .sink s') {x : Nat}
    (hr : s.sink ≠ .reset x) : s'.heap x = s.heap x ∧ s'.records x = s.records x := by
  cases hmove with
  | reset hsink =>
      have hxb : x ≠ _ := fun heq => hr (heq ▸ hsink)
      exact ⟨Function.update_of_ne hxb _ _, Function.update_of_ne hxb _ _⟩
  | _ => exact ⟨rfl, rfl⟩

/-- A step changes no buffer but the one `RingBufBG` holds and the one being
reset. -/
theorem Moves.frame {s s' : Pool R} {l : PoolLabel R} (hmove : s.Moves CacheBufQueueSize l s')
    (h : Owned CacheBufQueueSize s) {x : Nat} (hx : x ∈ s.places) (hp : s.pBuffer ≠ some x)
    (hr : s.sink ≠ .reset x) : s'.heap x = s.heap x ∧ s'.records x = s.records x := by
  cases l with
  | writer c => exact hmove.writer_frame h hx hp
  | sink => exact hmove.sink_frame hr

/-- `RingBufBG` neither writes nor deletes a buffer. -/
theorem Moves.writer_keeps {s s' : Pool R} {c : PoolCmd R}
    (hmove : s.Moves CacheBufQueueSize (.writer c) s') :
    s'.writes = s.writes ∧ s'.deleted = s.deleted := by
  cases hmove <;> exact ⟨rfl, rfl⟩

theorem Moves.sink_pBuffer {s s' : Pool R} (hmove : s.Moves CacheBufQueueSize .sink s') :
    s'.pBuffer = s.pBuffer := by
  cases hmove <;> rfl

theorem mem_places_of_current {s : Pool R} {b : Nat} (hb : s.pBuffer = some b) : b ∈ s.places := by
  simp only [places, hb, Option.toList_some, List.mem_append]
  exact .inl (.inl (.inl (.inl (List.mem_singleton_self b))))

namespace Owned

variable {s s' : Pool R} {l : PoolLabel R}

theorem mem_places_of_queued {b : Nat} (hb : b ∈ s.sinkBufQueue) : b ∈ s.places := by
  simp only [places, List.mem_append]
  exact .inl (.inl (.inl (.inr hb)))

theorem mem_places_of_held {b : Nat} (hb : b ∈ s.sink.holds) : b ∈ s.places := by
  simp only [places, List.mem_append]
  exact .inl (.inl (.inr hb))

theorem mem_places_of_cached {b : Nat} (hb : b ∈ s.cacheBufQueue) : b ∈ s.places := by
  simp only [places, List.mem_append]
  exact .inl (.inr hb)

theorem queued_frame (h : Owned CacheBufQueueSize s) (hmove : s.Moves CacheBufQueueSize l s')
    {b : Nat} (hb : b ∈ s.sinkBufQueue) :
    s'.heap b = s.heap b ∧ s'.records b = s.records b := by
  refine hmove.frame h (mem_places_of_queued hb) (fun hp => (h.pBuffer_unique hp).1 hb) ?_
  intro hr
  have hheld : b ∈ s.sink.holds := by rw [hr]; exact List.mem_singleton_self b
  exact (h.holds_unique hheld).2.1 hb

theorem cached_frame (h : Owned CacheBufQueueSize s) (hmove : s.Moves CacheBufQueueSize l s')
    {b : Nat} (hb : b ∈ s.cacheBufQueue) :
    s'.heap b = s.heap b ∧ s'.records b = s.records b := by
  refine hmove.frame h (mem_places_of_cached hb) (fun hp => (h.pBuffer_unique hp).2.2.1 hb) ?_
  intro hr
  have hheld : b ∈ s.sink.holds := by rw [hr]; exact List.mem_singleton_self b
  exact (h.holds_unique hheld).2.2.1 hb

theorem held_frame (h : Owned CacheBufQueueSize s) (hmove : s.Moves CacheBufQueueSize l s')
    {b : Nat} (hb : b ∈ s.sink.holds) (hr : s.sink ≠ .reset b) :
    s'.heap b = s.heap b ∧ s'.records b = s.records b :=
  hmove.frame h (mem_places_of_held hb) (h.holds_unique hb).1 hr

/-- A buffer still to be written is not the one being reset. -/
theorem unwritten_frame (h : Owned CacheBufQueueSize s) (hmove : s.Moves CacheBufQueueSize l s')
    {b : Nat} (hb : b ∈ s.sink.unwritten) :
    s'.heap b = s.heap b ∧ s'.records b = s.records b := by
  refine h.held_frame hmove (s.sink.unwritten_subset hb) ?_
  intro hr
  rw [hr] at hb
  cases hb

/-- Nor is one that was reset. -/
theorem emptied_frame (h : Owned CacheBufQueueSize s) (hmove : s.Moves CacheBufQueueSize l s')
    {b : Nat} (hb : b ∈ s.sink.emptied) :
    s'.heap b = s.heap b ∧ s'.records b = s.records b := by
  refine h.held_frame hmove (s.sink.emptied_subset hb) ?_
  intro hr
  rw [hr] at hb
  cases hb

end Owned

/-- The records written, waiting and in the current buffer are the records
copied out, in order; buffers on the way back are empty. -/
structure Conserved (s : Pool R) : Prop where
  drained_eq : s.written ++ s.sink.unwritten.flatMap s.records ++ s.sinkBufQueue.flatMap s.records
    ++ s.pBuffer.toList.flatMap s.records = s.drained
  cached : ∀ b ∈ s.cacheBufQueue, (s.heap b).cur_ = 0 ∧ s.records b = []
  emptied : ∀ b ∈ s.sink.emptied, (s.heap b).cur_ = 0 ∧ s.records b = []

/-- What is noted of another buffer does not concern the current one. -/
theorem flatMap_pBuffer_update {α : Type} {p : Option Nat} {b : Nat} {f : Nat → List α}
    {v : List α} (h : p ≠ some b) :
    p.toList.flatMap (Function.update f b v) = p.toList.flatMap f := by
  refine List.flatMap_congr ?_
  intro x hx
  have hxb : x ≠ b := fun heq => h (heq ▸ Option.mem_toList.mp hx)
  exact Function.update_of_ne hxb v f

namespace Conserved

variable {s s' : Pool R} {l : PoolLabel R}

theorem drained_step (h : Conserved s) (howned : Owned CacheBufQueueSize s)
    (hmove : s.Moves CacheBufQueueSize l s') :
    s'.written ++ s'.sink.unwritten.flatMap s'.records ++ s'.sinkBufQueue.flatMap s'.records
      ++ s'.pBuffer.toList.flatMap s'.records = s'.drained := by
  have hqueue : s.sinkBufQueue.flatMap s'.records = s.sinkBufQueue.flatMap s.records :=
    List.flatMap_congr fun b hb => (howned.queued_frame hmove hb).2
  have hunwritten : s.sink.unwritten.flatMap s'.records = s.sink.unwritten.flatMap s.records := by
    exact List.flatMap_congr fun b hb => (howned.unwritten_frame hmove hb).2
  have heq := h.drained_eq
  rw [← hqueue, ← hunwritten] at heq
  cases hmove with
  | take hnone hcache =>
      have hempty := (h.cached _ (by rw [hcache]; exact List.mem_append_right _ (.head _))).2
      simpa [hnone, hempty] using heq
  | append hb =>
      rw [← heq]
      simp only [hb, Option.toList_some, List.flatMap_cons, List.flatMap_nil, List.append_nil,
        Function.update_self, List.append_assoc]
  | swap hb hcache =>
      have hempty := (h.cached _ (by rw [hcache]; exact List.mem_append_right _ (.head _))).2
      simpa [hb, hempty] using heq
  | @grow b hb hcache =>
      have hplace : b ∈ s.places := mem_places_of_current hb
      have hne := ne_of_mem_of_not_mem hplace howned.fresh
      simpa [hb, Function.update_of_ne hne] using heq
  | exitTest hsink | sizeTest hsink | cacheTest hsink =>
      rw [hsink] at heq
      simp only
      split <;> exact heq
  | pop hsink hfront =>
      rw [hsink, hfront] at heq
      simpa [SinkBufBG.unwritten] using heq
  | write hsink =>
      rw [hsink] at heq
      simpa [SinkBufBG.unwritten] using heq
  | reset hsink =>
      rw [hsink] at heq
      have hp := (howned.holds_unique (by rw [hsink]; exact .head _)).1
      rw [flatMap_pBuffer_update hp]
      exact heq
  | delete hsink | pushBack hsink => rwa [hsink] at heq
  | _ => exact heq

theorem cached_step (h : Conserved s) (howned : Owned CacheBufQueueSize s)
    (hmove : s.Moves CacheBufQueueSize l s') {b : Nat} (hb : b ∈ s'.cacheBufQueue) :
    (s'.heap b).cur_ = 0 ∧ s'.records b = [] := by
  have hold : b ∈ s.cacheBufQueue → (s'.heap b).cur_ = 0 ∧ s'.records b = [] := by
    intro hb
    rw [(howned.cached_frame hmove hb).1, (howned.cached_frame hmove hb).2]
    exact h.cached b hb
  cases hmove with
  | take _ hcache | swap _ hcache => exact hold (by rw [hcache]; exact List.mem_append_left _ hb)
  | pushBack hsink =>
      rcases List.mem_append.mp hb with hb | hb
      · exact hold hb
      · obtain rfl := List.mem_singleton.mp hb
        exact h.emptied _ (by rw [hsink]; exact .head _)
  | _ => exact hold hb

theorem emptied_step (h : Conserved s) (howned : Owned CacheBufQueueSize s)
    (hmove : s.Moves CacheBufQueueSize l s') {b : Nat} (hb : b ∈ s'.sink.emptied) :
    (s'.heap b).cur_ = 0 ∧ s'.records b = [] := by
  have hold : b ∈ s.sink.emptied → (s'.heap b).cur_ = 0 ∧ s'.records b = [] := by
    intro hb
    rw [(howned.emptied_frame hmove hb).1, (howned.emptied_frame hmove hb).2]
    exact h.emptied b hb
  cases hmove with
  | exitTest hsink | sizeTest hsink =>
      simp only at hb
      split at hb <;> cases hb
  | reset hsink =>
      obtain rfl := List.mem_singleton.mp hb
      simp only [Function.update_self]
      exact ⟨rfl, trivial⟩
  | cacheTest hsink =>
      refine hold ?_
      rw [hsink]
      simp only at hb
      split at hb <;> exact hb
  | pop | write | delete | pushBack => cases hb
  | _ => exact hold hb

theorem step (h : Conserved s) (howned : Owned CacheBufQueueSize s)
    (hmove : s.Moves CacheBufQueueSize l s') : Conserved s' where
  drained_eq := h.drained_step howned hmove
  cached _ hb := h.cached_step howned hmove hb
  emptied _ hb := h.emptied_step howned hmove hb

theorem main (memory : Nat → Nat → Byte) :
    Conserved (Pool.main CacheBufQueueSize memory : Pool R) where
  drained_eq := by simp [Pool.main, SinkBufBG.unwritten]
  cached _ _ := ⟨rfl, rfl⟩
  emptied _ hb := by cases hb

theorem of_reachable (hpos : 0 < CacheBufQueueSize)
    (h : (poolSystem R CacheBufQueueSize).Reachable s) : Conserved s := by
  refine h.invariant (I := Conserved) ?_ ?_
  · rintro s ⟨memory, rfl⟩
    exact main memory
  · intro l u u' hreach hu hstep
    exact hu.step (.of_reachable hpos hreach) (step_moves hstep)

end Conserved

/-- A queued buffer with its bytes. -/
def entry (s : Pool R) (b : Nat) : Nat × List Byte := (b, (s.heap b).contents)

/-- What was written, then what was popped, then the queue, is what was
pushed, in order and with the bytes it had when it was pushed. -/
def Logged (s : Pool R) : Prop :=
  s.writes ++ s.sink.unwritten.map s.entry ++ s.sinkBufQueue.map s.entry = s.pushes

namespace Logged

variable {s s' : Pool R} {l : PoolLabel R}

theorem step (h : Logged s) (howned : Owned CacheBufQueueSize s)
    (hmove : s.Moves CacheBufQueueSize l s') : Logged s' := by
  have hqueue : s.sinkBufQueue.map s'.entry = s.sinkBufQueue.map s.entry :=
    List.map_congr_left fun b hb => by rw [entry, (howned.queued_frame hmove hb).1, entry]
  have hunwritten : s.sink.unwritten.map s'.entry = s.sink.unwritten.map s.entry := by
    refine List.map_congr_left ?_
    intro b hb
    rw [entry, (howned.unwritten_frame hmove hb).1, entry]
  have heq : _ = _ := h
  rw [← hqueue, ← hunwritten] at heq
  unfold Logged
  cases hmove with
  | swap hb hcache =>
      rw [← heq, List.map_append, ← List.append_assoc]
      rfl
  | @grow b hb hcache =>
      have hplace : b ∈ s.places := mem_places_of_current hb
      have hne := ne_of_mem_of_not_mem hplace howned.fresh
      rw [← heq, List.map_append, ← List.append_assoc]
      exact congrArg (fun e => _ ++ [(b, SinkBuffer.contents e)]) (Function.update_of_ne hne _ _)
  | exitTest hsink | sizeTest hsink | cacheTest hsink =>
      rw [hsink] at heq
      simp only
      split <;> exact heq
  | pop hsink hfront =>
      rw [hsink, hfront] at heq
      simpa [SinkBufBG.unwritten] using heq
  | write hsink =>
      rw [hsink] at heq
      simpa [SinkBufBG.unwritten, entry] using heq
  | reset hsink | delete hsink | pushBack hsink => rwa [hsink] at heq
  | _ => exact heq

theorem of_reachable (hpos : 0 < CacheBufQueueSize)
    (h : (poolSystem R CacheBufQueueSize).Reachable s) : Logged s := by
  refine h.invariant (I := Logged) ?_ ?_
  · rintro s ⟨memory, rfl⟩
    rfl
  · intro l u u' hreach hu hstep
    exact hu.step (.of_reachable hpos hreach) (step_moves hstep)

end Logged

/-- The file is what was written to it, one `write` after the other. -/
theorem file_eq_writes {s : Pool R} (h : (poolSystem R CacheBufQueueSize).Reachable s) :
    s.file = s.writes.flatMap Prod.snd := by
  refine h.invariant (I := fun s : Pool R => s.file = s.writes.flatMap Prod.snd) ?_ ?_
  · rintro s ⟨memory, rfl⟩
    rfl
  · intro l u u' _ hu hstep
    cases step_moves hstep with
    | write hsink =>
        rw [List.flatMap_append, ← hu]
        exact congrArg _ (List.append_nil _).symm
    | _ => exact hu

end Pool

end LockFreeRingBuf
