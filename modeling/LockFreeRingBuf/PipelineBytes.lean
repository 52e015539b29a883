import LockFreeRingBuf.PipelineStores

/-!
# The bytes of the log

`Encodes` says, for every buffer, that the bytes up to `cur_` are those of
the records copied into it since its last `reset`, and how far the record
in progress has got in the current one. With the conservation of records
in the pool and of entries in the rings, the log is accounted for from the
producers to the file.
-/

namespace LockFreeRingBuf

open Bytes Resumption Transition

variable {P : Params}

/-- The first 12 bytes of a record in the log. -/
def UncompressedEntry.head {n : Nat} (e : UncompressedEntry n) : List Byte :=
  littleEndian 4 e.fmtId ++ littleEndian 8 e.timestamp

/-- The bytes that records stand for. -/
def encodeAll {n : Nat} (records : List (Record n)) : List Byte :=
  records.flatMap fun x => x.entry.encode

theorem encodeAll_append {n : Nat} (rs rs' : List (Record n)) :
    encodeAll (rs ++ rs') = encodeAll rs ++ encodeAll rs' :=
  List.flatMap_append

theorem encodeAll_concat {n : Nat} (rs : List (Record n)) (x : Record n) :
    encodeAll (rs ++ [x]) = encodeAll rs ++ x.entry.head ++ x.entry.argData.toList := by
  rw [encodeAll_append, List.append_assoc]
  exact congrArg _ (List.append_nil _)

theorem encodeAll_length {n : Nat} (rs : List (Record n)) :
    (encodeAll rs).length = (12 + n) * rs.length := by
  induction rs with
  | nil => rfl
  | cons x rs ih =>
      rw [← List.singleton_append, encodeAll_append, List.length_append, ih, encodeAll,
        List.flatMap_singleton, UncompressedEntry.encode_length, List.length_append, Nat.mul_add]
      simp

/-- The bytes up to `cur_` are those of the records copied into the buffer. -/
def Pool.Whole {n : Nat} (pool : Pool (Record n)) (b : Nat) : Prop :=
  readAt (pool.heap b).data_ 0 (pool.heap b).cur_ = encodeAll (pool.records b)

theorem Pool.Whole.congr {n : Nat} {pool pool' : Pool (Record n)} {b : Nat} (h : pool.Whole b)
    (hheap : pool'.heap b = pool.heap b) (hrecords : pool'.records b = pool.records b) :
    pool'.Whole b := by
  rw [Whole, hheap, hrecords]
  exact h

theorem Pool.Whole.contents_eq {n SIZE : Nat} {pool : Pool (Record n)} {b : Nat}
    (h : pool.Whole b) (hSIZE : SIZE < 2 ^ 31) (hfits : (pool.heap b).Fits SIZE) :
    (pool.heap b).contents = encodeAll (pool.records b) := by
  rw [SinkBuffer.contents_eq hSIZE hfits, h]

/-! ## One step of the pool -/

section

variable {n CacheBufQueueSize : Nat} {pool pool' : Pool (Record n)} {c : PoolCmd (Record n)}

/-- Of the buffers that `RingBufBG` does not hold, only the one it hands off
is new, and no other is changed. -/
theorem Pool.Moves.whole (hmove : pool.Moves CacheBufQueueSize (.writer c) pool')
    (h : ∀ b, pool.pBuffer ≠ some b → pool.Whole b)
    (hcurrent : c = .handOff → ∀ b, pool.pBuffer = some b → pool.Whole b)
    {x : Nat} (hx : pool'.pBuffer ≠ some x) : pool'.Whole x := by
  have hne : ∀ {b}, pool'.pBuffer = some b → x ≠ b := fun hb heq => hx (heq ▸ hb)
  have hall : c = .handOff → pool.Whole x := by
    intro hc
    by_cases hb : pool.pBuffer = some x
    · exact hcurrent hc x hb
    · exact h x hb
  cases hmove with
  | take hnone hcache => exact h x (by simp [hnone])
  | store hb | add hb => exact (h x hx).congr (Function.update_of_ne (hne hb) _ _) rfl
  | append hb =>
      exact (h x hx).congr (Function.update_of_ne (hne hb) _ _)
        (Function.update_of_ne (hne hb) _ _)
  | swap hb hcache => exact hall rfl
  | grow hb hcache =>
      exact (hall rfl).congr (Function.update_of_ne (hne rfl) _ _)
        (Function.update_of_ne (hne rfl) _ _)
  | exit => exact h x hx

/-- The buffer taken in exchange is whole: it is empty. -/
theorem Pool.Moves.taken_whole (hmove : pool.Moves CacheBufQueueSize (.writer c) pool')
    (howned : pool.Owned CacheBufQueueSize) (h : ∀ b, pool.pBuffer ≠ some b → pool.Whole b)
    (hc : c = .take ∨ c = .handOff) {x : Nat} (hx : pool'.pBuffer = some x) : pool'.Whole x := by
  cases hmove with
  | take hnone hcache => exact h x (by simp [hnone])
  | @swap b init b' hb hcache =>
      obtain rfl := Option.some.inj hx
      refine h b' fun hb' => (howned.pBuffer_unique hb').2.2.1 ?_
      rw [hcache]
      exact List.mem_append_right _ (.head _)
  | grow hb hcache =>
      obtain rfl := Option.some.inj hx
      simp only [Pool.Whole, Function.update_self]
      rfl
  | store | add | append | exit => rcases hc with hc | hc <;> cases hc

/-- Only `sinkBufBG` writes to the file. -/
theorem Pool.Moves.file_eq (hmove : pool.Moves CacheBufQueueSize (.writer c) pool') :
    pool'.file = pool.file ∧ pool'.written = pool.written := by
  cases hmove <;> exact ⟨rfl, rfl⟩

end

namespace Pipeline

variable {s s' : Pipeline P}

/-- The entry that `RingBufBG`'s ring gives up next. -/
def next? (s : Pipeline P) : Option (UncompressedEntry P.argNum) :=
  s.ring.shared.published[s.ring.collected.length]?

/-- What stands in the current buffer, with the record in progress. -/
def Filling (s : Pipeline P) (b : Nat) : Prop :=
  match s.bg.pc with
  | .timestamp => s.pool.Whole b ∧ ∃ e, s.next? = some e
      ∧ readAt (s.pool.heap b).data_ (s.pool.heap b).cur_ 4 = littleEndian 4 e.fmtId
  | .add12 => s.pool.Whole b ∧ ∃ e, s.next? = some e
      ∧ readAt (s.pool.heap b).data_ (s.pool.heap b).cur_ 12 = e.head
  | .append => ∃ e, s.next? = some e
      ∧ readAt (s.pool.heap b).data_ 0 (s.pool.heap b).cur_
        = encodeAll (s.pool.records b) ++ e.head
  | _ => s.pool.Whole b

theorem Filling.congr {b : Nat} (h : s.Filling b) (hbg : s'.bg = s.bg)
    (hheap : s'.pool.heap b = s.pool.heap b) (hrecords : s'.pool.records b = s.pool.records b)
    (hnext : ∀ e, s.next? = some e → s'.next? = some e) : s'.Filling b := by
  unfold Filling Pool.Whole at *
  rw [hbg, hheap, hrecords]
  split
  · next hpc =>
      rw [hpc] at h
      obtain ⟨hwhole, e, he, hread⟩ := h
      exact ⟨hwhole, e, hnext e he, hread⟩
  · next hpc =>
      rw [hpc] at h
      obtain ⟨hwhole, e, he, hread⟩ := h
      exact ⟨hwhole, e, hnext e he, hread⟩
  · next hpc =>
      rw [hpc] at h
      obtain ⟨e, he, hread⟩ := h
      exact ⟨e, hnext e he, hread⟩
  · simpa only [*] using h

structure Encodes (s : Pipeline P) : Prop where
  whole : ∀ b, s.pool.pBuffer ≠ some b → s.pool.Whole b
  filling : ∀ b, s.pool.pBuffer = some b → s.Filling b
  file_eq : s.pool.file = encodeAll s.pool.written

namespace Encodes

/-- A step that leaves the pool alone, between two records. -/
theorem of_pool_eq (h : s.Encodes) (hpool : s'.pool = s.pool)
    (hfilling : ∀ b, s.pool.pBuffer = some b → s'.Filling b) : s'.Encodes where
  whole := by rw [hpool]; exact h.whole
  filling := by rw [hpool]; exact hfilling
  file_eq := by rw [hpool]; exact h.file_eq

/-- A step of `RingBufBG` on the pool. -/
theorem of_writer (h : s.Encodes) {c : PoolCmd (Record P.argNum)}
    (hpool : s.WriterSteps c s'.pool)
    (hcurrent : c = .handOff → ∀ b, s.pool.pBuffer = some b → s.pool.Whole b)
    (hfilling : ∀ b, s'.pool.pBuffer = some b → s'.Filling b) : s'.Encodes where
  whole _ hb := (Pool.step_moves hpool).whole h.whole hcurrent hb
  filling := hfilling
  file_eq := by
    obtain ⟨hfile, hwritten⟩ := (Pool.step_moves hpool).file_eq
    rw [hfile, hwritten]
    exact h.file_eq

/-- Up to `cur_` the current buffer is whole, but between the header and the
arguments of a record. -/
theorem current_whole (h : s.Encodes) {b : Nat} (hb : s.pool.pBuffer = some b)
    (hpc : s.bg.pc ≠ .append) : s.pool.Whole b := by
  have hfilling := h.filling b hb
  unfold Filling at hfilling
  split at hfilling
  · exact hfilling.1
  · exact hfilling.1
  · next hpc' => exact absurd hpc' hpc
  · exact hfilling

theorem fmtId_step (h : s.Encodes) {b : Nat} {e : UncompressedEntry P.argNum}
    {pool : Pool (Record P.argNum)} (hpc : s.bg.pc = .fmtId) (hb : s.pool.pBuffer = some b)
    (he : s.next? = some e)
    (hpool : s.WriterSteps (.store (s.pool.heap b).cur_ (littleEndian 4 e.fmtId)) pool) :
    ({ s with pool, bg := { s.bg with pc := .timestamp } } : Pipeline P).Encodes := by
  refine h.of_writer hpool (by simp) ?_
  intro b' hb'
  have hwhole := h.current_whole hb (by simp [hpc])
  cases Pool.step_moves hpool with
  | store hb'' =>
      obtain rfl := Option.some.inj (hb''.symm.trans hb)
      obtain rfl := Option.some.inj (hb''.symm.trans hb')
      simp only [Filling, Pool.Whole, Function.update_self, SinkBuffer.store]
      refine ⟨?_, e, he, readAt_writeAt⟩
      rw [readAt_writeAt_of_disjoint (.inl (Nat.le_of_eq (Nat.zero_add _)))]
      exact hwhole

theorem timestamp_step (h : s.Encodes) {b : Nat} {e : UncompressedEntry P.argNum}
    {pool : Pool (Record P.argNum)} (hpc : s.bg.pc = .timestamp) (hb : s.pool.pBuffer = some b)
    (he : s.next? = some e)
    (hpool : s.WriterSteps (.store ((s.pool.heap b).cur_ + 4) (littleEndian 8 e.timestamp)) pool) :
    ({ s with pool, bg := { s.bg with pc := .add12 } } : Pipeline P).Encodes := by
  refine h.of_writer hpool (by simp) ?_
  intro b' hb'
  have hfilling := h.filling b hb
  simp only [Filling, hpc] at hfilling
  obtain ⟨hwhole, e', he', hread⟩ := hfilling
  obtain rfl := Option.some.inj (he'.symm.trans he)
  cases Pool.step_moves hpool with
  | store hb'' =>
      obtain rfl := Option.some.inj (hb''.symm.trans hb)
      obtain rfl := Option.some.inj (hb''.symm.trans hb')
      simp only [Filling, Pool.Whole, Function.update_self, SinkBuffer.store]
      refine ⟨?_, e', he, ?_⟩
      · rw [readAt_writeAt_of_disjoint (.inl (by omega))]
        exact hwhole
      · rw [show 12 = 4 + 8 from rfl, readAt_add, readAt_writeAt_of_disjoint (.inl (Nat.le_refl _)),
          hread]
        exact congrArg (littleEndian 4 e'.fmtId ++ ·) readAt_writeAt

theorem add12_step (h : s.Encodes) {pool : Pool (Record P.argNum)} (hpc : s.bg.pc = .add12)
    (hpool : s.WriterSteps (.add 12) pool) :
    ({ s with pool, bg := { s.bg with pc := .append } } : Pipeline P).Encodes := by
  refine h.of_writer hpool (by simp) ?_
  intro b hb
  cases Pool.step_moves hpool with
  | add hb' =>
      obtain rfl := Option.some.inj (hb'.symm.trans hb)
      have hfilling := h.filling _ hb'
      simp only [Filling, hpc] at hfilling
      obtain ⟨hwhole, e, he, hread⟩ := hfilling
      refine ⟨e, he, ?_⟩
      simp only [Function.update_self, SinkBuffer.add]
      rw [readAt_add, Nat.zero_add, hread, hwhole]

theorem append_step (h : s.Encodes) {e : UncompressedEntry P.argNum}
    {rings : Nat → Config (UncompressedEntry P.argNum)} {bg : RingBufBG}
    {pool : Pool (Record P.argNum)} (hpc : s.bg.pc = .append) (he : s.next? = some e)
    (hbg : bg.pc = .copyTest)
    (hpool : s.WriterSteps (.append e.argData.toList ⟨s.bg.index, s.drainIters, e⟩) pool) :
    ({ s with rings, bg, pool } : Pipeline P).Encodes := by
  refine h.of_writer hpool (by simp) ?_
  intro b hb
  cases Pool.step_moves hpool with
  | @append b' _ _ hb' =>
      obtain rfl := Option.some.inj (hb'.symm.trans hb)
      have hfilling := h.filling _ hb'
      simp only [Filling, hpc] at hfilling
      obtain ⟨e', he', hread⟩ := hfilling
      obtain rfl := Option.some.inj (he'.symm.trans he)
      simp only [Filling, hbg, Pool.Whole, Function.update_self, SinkBuffer.append,
        SinkBuffer.store]
      rw [encodeAll_concat, ← hread, readAt_add, Nat.zero_add, readAt_writeAt,
        readAt_writeAt_of_disjoint (.inl (Nat.le_of_eq (Nat.zero_add _)))]

theorem bg_step (h : s.Encodes) (hreach : (pipeline P).Reachable s) (hmove : s.BgMoves s') :
    s'.Encodes := by
  have howned := owned hreach
  have hat := (coupled hreach).bg
  cases hmove with
  | take hpc hpool =>
      exact h.of_writer hpool (by simp) fun b hb =>
        (Pool.step_moves hpool).taken_whole howned h.whole (.inl rfl) hb
  | swapFull hpc hpool | flush hpc hpool =>
      exact h.of_writer hpool (fun _ b hb => h.current_whole hb (by simp [hpc]))
        fun b hb => (Pool.step_moves hpool).taken_whole howned h.whole (.inr rfl) hb
  | fmtId hpc he hb hpool =>
      simp only [RingBufBG.At, hpc] at hat
      exact h.fmtId_step hpc hb (entry_published (ring_reachable hreach _) hat.1 hat.2 he) hpool
  | timestamp hpc he hb hpool =>
      simp only [RingBufBG.At, hpc] at hat
      exact h.timestamp_step hpc hb (entry_published (ring_reachable hreach _) hat.1 hat.2 he) hpool
  | add12 hpc hpool => exact h.add12_step hpc hpool
  | append hpc he hr hpool =>
      simp only [RingBufBG.At, hpc] at hat
      exact h.append_step hpc (entry_published (ring_reachable hreach _) hat.1 hat.2 he) rfl hpool
  | exitFlag hpc hpool =>
      refine h.of_writer hpool (by simp) ?_
      intro b hb
      cases Pool.step_moves hpool with
      | exit => exact h.current_whole hb (by simp [hpc])
  | peeking hpc | consuming hpc =>
      refine h.of_pool_eq rfl ?_
      intro b hb
      simp only [Filling, hpc]
      exact h.current_whole hb (by simp [hpc])
  | _ =>
      have hpc := ‹s.bg.pc = _›
      exact h.of_pool_eq rfl fun b hb => h.current_whole hb (by simp [hpc])

theorem add_step (h : s.Encodes) {i : Nat} {tsc : BitVec 64} (hmove : s.AddMoves i tsc s') :
    s'.Encodes := by
  obtain ⟨hrings, hpool, hbg⟩ := hmove.frame
  refine h.of_pool_eq hpool fun b hb => (h.filling b hb).congr hbg (by rw [hpool])
    (by rw [hpool]) ?_
  intro e he
  obtain ⟨hcollected, rest, hrest⟩ := hrings s.bg.index
  rw [next?, ring, hbg, hcollected, ← hrest,
    List.getElem?_append_left (List.getElem?_eq_some_iff.mp he).1]
  exact he

theorem sink_step (h : s.Encodes) (hreach : (pipeline P).Reachable s)
    {pool : Pool (Record P.argNum)} (hmove : s.pool.Moves P.cacheBufQueueSize .sink pool) :
    ({ s with pool } : Pipeline P).Encodes := by
  have howned := owned hreach
  refine ⟨fun b hb => ?_, fun b hb => ?_, ?_⟩
  · rw [hmove.sink_pBuffer] at hb
    by_cases hr : s.pool.sink = .reset b
    · cases hmove with
      | reset hsink =>
          obtain rfl := SinkBufBG.reset.inj (hsink.symm.trans hr)
          simp only [Pool.Whole, Function.update_self]
          rfl
      | _ =>
          have hsink := ‹s.pool.sink = _›
          rw [hr] at hsink
          cases hsink
    · obtain ⟨hheap, hrecords⟩ := hmove.sink_frame hr
      exact (h.whole b hb).congr hheap hrecords
  · have hb' : s.pool.pBuffer = some b := hmove.sink_pBuffer.symm.trans hb
    obtain ⟨hheap, hrecords⟩ := hmove.sink_frame (howned.current_not_reset hb')
    exact (h.filling b hb').congr rfl hheap hrecords fun _ he => he
  · cases hmove with
    | @write b hsink =>
        have hheld : b ∈ s.pool.sink.holds := by rw [hsink]; exact List.mem_singleton_self b
        have hwhole := h.whole b (howned.holds_unique hheld).1
        simp only
        rw [encodeAll_append, hwhole.contents_eq P.size_lt ((roomy hreach).fits b), h.file_eq]
    | _ => exact h.file_eq

end Encodes

/-! ## Every reachable state -/

theorem encodes (h : (pipeline P).Reachable s) : s.Encodes := by
  refine h.invariant (I := Encodes) ?_ ?_
  · rintro s ⟨arr, memory, rfl⟩
    refine ⟨fun _ _ => rfl, fun b hb => ?_, rfl⟩
    cases hb
  · intro l u u' hreach hu hstep
    cases step_moves hstep with
    | add _ hmove => exact hu.add_step hmove
    | bg hmove => exact hu.bg_step hreach hmove
    | sink hpool => exact hu.sink_step hreach (Pool.step_moves hpool)

/-- The contents of buffers that are whole are the bytes of their records. -/
theorem flatMap_contents (h : (pipeline P).Reachable s) {l : List Nat}
    (hwhole : ∀ b ∈ l, s.pool.Whole b) :
    l.flatMap (fun b => (s.pool.heap b).contents) = encodeAll (l.flatMap s.pool.records) := by
  rw [encodeAll, List.flatMap_assoc]
  exact List.flatMap_congr fun b hb =>
    (hwhole b hb).contents_eq P.size_lt ((roomy h).fits b)

/-- The bytes that have come out of the rings: the file, the buffer popped and not
yet written, the queue and the current buffer. -/
def logBytes (s : Pipeline P) : List Byte :=
  s.pool.file ++ s.pool.sink.unwritten.flatMap (fun b => (s.pool.heap b).contents)
    ++ s.pool.sinkBufQueue.flatMap (fun b => (s.pool.heap b).contents)
    ++ s.pool.pBuffer.toList.flatMap (fun b => (s.pool.heap b).contents)

theorem all_whole (h : (pipeline P).Reachable s) (hpc : s.bg.pc ≠ .append) (b : Nat) :
    s.pool.Whole b := by
  have hencodes := encodes h
  by_cases hb : s.pool.pBuffer = some b
  · exact hencodes.current_whole hb hpc
  · exact hencodes.whole b hb

/-- They are the bytes of the records drained. -/
theorem logBytes_eq (h : (pipeline P).Reachable s) (hpc : s.bg.pc ≠ .append) :
    s.logBytes = encodeAll s.pool.drained := by
  have hwhole := all_whole h hpc
  rw [logBytes, (encodes h).file_eq, flatMap_contents h fun b _ => hwhole b,
    flatMap_contents h fun b _ => hwhole b, flatMap_contents h fun b _ => hwhole b,
    ← encodeAll_append, ← encodeAll_append, ← encodeAll_append, (conserved h).drained_eq]

end Pipeline

/-- When the loop has been left, the bytes of every record that was drained are in
the log, and it is as long as all records of all producers. -/
theorem drained_bytes {s : Pipeline P} (h : (pipeline P).Reachable s)
    (hpc : s.bg.pc = .exitFlag ∨ s.bg.pc = .done) :
    s.logBytes = encodeAll s.pool.drained
      ∧ s.logBytes.length = (12 + P.argNum) * (P.addNum * P.threadNum) := by
  have hbytes : s.logBytes = encodeAll s.pool.drained :=
    Pipeline.logBytes_eq h (by rcases hpc with hpc | hpc <;> simp [hpc])
  exact ⟨hbytes, by rw [hbytes, encodeAll_length, Pipeline.drained_full h hpc]⟩

/-- Except between the header and the arguments of a record, when a part of
it is already counted in `cur_`: the file, the buffer popped and not yet
written, the queue and the current buffer hold the bytes of all records
drained so far, in order, each buffer a whole number of them; and what was
drained from each ring is a prefix of what its producer published. -/
theorem log_conserved {s : Pipeline P} (h : (pipeline P).Reachable s) (hpc : s.bg.pc ≠ .append) :
    s.pool.file ++ s.pool.sink.unwritten.flatMap (fun b => (s.pool.heap b).contents)
        ++ s.pool.sinkBufQueue.flatMap (fun b => (s.pool.heap b).contents)
        ++ s.pool.pBuffer.toList.flatMap (fun b => (s.pool.heap b).contents)
        = s.pool.drained.flatMap (fun x => x.entry.encode)
      ∧ (∀ b ∈ s.pool.sink.unwritten ++ s.pool.sinkBufQueue ++ s.pool.pBuffer.toList,
          (s.pool.heap b).contents = (s.pool.records b).flatMap (fun x => x.entry.encode)
          ∧ (s.pool.heap b).contents.length = (12 + P.argNum) * (s.pool.records b).length)
      ∧ ∀ i, s.pool.drainedFrom i <+: (s.rings i).shared.published := by
  refine ⟨Pipeline.logBytes_eq h hpc, fun b _ => ?_, fun i => ?_⟩
  · have hwhole := Pipeline.all_whole h hpc b
    have hcontents := hwhole.contents_eq P.size_lt ((Pipeline.roomy h).fits b)
    exact ⟨hcontents, by rw [hcontents, encodeAll_length]⟩
  · rw [(Pipeline.drains h).collected]
    exact (Pipeline.drains h).ordered i

/-- One record is popped and not yet written, the other in the current buffer. -/
theorem log_conserved_tiny :
    let s := Pipeline.tinyAfter [(.add 0 5#64, 27), (.bg, 25), (.sink, 3)]
    s.bg.pc ≠ .append ∧ s.pool.sink.unwritten = [0] ∧ s.pool.pBuffer = some 1
      ∧ (s.pool.heap 0).contents = [7, 0, 0, 0, 5, 0, 0, 0, 0, 0, 0, 0]
      ∧ (s.pool.heap 0).contents.length = 12 * (s.pool.records 0).length
      ∧ s.pool.drainedFrom 0 <+: (s.rings 0).shared.published := by
  intro s
  have hreach : (pipeline .tiny).Reachable s := Pipeline.tinyAfter_reachable _
  have hpc : s.bg.pc ≠ .append := by decide +kernel
  have hunwritten : s.pool.sink.unwritten = [0] := by decide +kernel
  obtain ⟨-, hwhole, hprefix⟩ := log_conserved hreach hpc
  have hzero := (hwhole 0 (by rw [hunwritten]; exact .head _)).2
  exact ⟨hpc, hunwritten, by decide +kernel, by decide +kernel, hzero, hprefix 0⟩

end LockFreeRingBuf
