import LockFreeRingBuf.RingAlike
import LockFreeRingBuf.PipelinePushes
import LockFreeRingBuf.Shutdown

/-!
# Two runs under one schedule

Two runs of the pipeline that start with different arguments in the slots of
the rings and different memory in the buffers. No test that any thread makes
reads either, so both runs keep the same schedules, and what they push
onto `sinkBufQueue` differs in the arguments of the records only. The memory
of the buffers never shows. The arguments do: `add` writes the header of a
record and leaves `argData` as it is, so `append` copies the bytes that the
slot held when the ring was allocated.
-/

namespace LockFreeRingBuf

open Bytes Resumption Transition

/-! ## Two pools in step -/

section

variable {R K : Type} {key : R → K} {CacheBufQueueSize : Nat}

def SameFill (_ : Nat) (b b' : SinkBuffer) : Prop := b.cur_ = b'.cur_

def SameCount (_ : Nat) (records records' : List R) : Prop := records.length = records'.length

/-- The pools agree but for the bytes in the buffers, and on the records but
for what `key` leaves out. -/
structure Pool.Alike (key : R → K) (pool pool' : Pool R) : Prop where
  cacheBufQueue : pool.cacheBufQueue = pool'.cacheBufQueue
  sinkBufQueue : pool.sinkBufQueue = pool'.sinkBufQueue
  cur_ : ∀ b, SameFill b (pool.heap b) (pool'.heap b)
  allocNum : pool.allocNum = pool'.allocNum
  sinkBufBGExit : pool.sinkBufBGExit = pool'.sinkBufBGExit
  pBuffer : pool.pBuffer = pool'.pBuffer
  sink : pool.sink = pool'.sink
  records : ∀ b, SameCount b (pool.records b) (pool'.records b)
  drained : pool.drained.map key = pool'.drained.map key
  pushes : pool.pushes.map (fun x => (x.1, x.2.length))
    = pool'.pushes.map fun x => (x.1, x.2.length)

inductive PoolCmd.Alike (key : R → K) : PoolCmd R → PoolCmd R → Prop
  | take : Alike key .take .take
  | store {off bs bs'} : Alike key (.store off bs) (.store off bs')
  | add {len} : Alike key (.add len) (.add len)
  | append {bs bs' r r'} : bs.length = bs'.length → key r = key r' →
      Alike key (.append bs r) (.append bs' r')
  | handOff : Alike key .handOff .handOff
  | exit : Alike key .exit .exit

theorem update_rel {α β : Type} (rel : Nat → α → β → Prop) {f : Nat → α} {g : Nat → β}
    (h : ∀ i, rel i (f i) (g i)) {b : Nat} {v : α} {w : β} (hvw : rel b v w) (i : Nat) :
    rel i (Function.update f b v i) (Function.update g b w i) := by
  by_cases hi : i = b
  · subst hi
    rw [Function.update_self, Function.update_self]
    exact hvw
  · rw [Function.update_of_ne hi, Function.update_of_ne hi]
    exact h i

theorem SinkBuffer.contents_length {b b' : SinkBuffer} (h : b.cur_ = b'.cur_) :
    b.contents.length = b'.contents.length := by
  rw [contents, contents, readAt_length, readAt_length, length, length, h]

namespace Pool.Alike

variable {pool pool' : Pool R}

theorem sinkStep (h : pool.Alike key pool') :
    Option.Rel (Pool.Alike key) (pool.sinkStep CacheBufQueueSize)
      (pool'.sinkStep CacheBufQueueSize) := by
  simp only [Pool.sinkStep, ← h.sink]
  cases pool.sink with
  | exitTest => exact .some { h with sink := by simp only [h.sinkBufBGExit] }
  | sizeTest => exact .some { h with sink := by simp only [h.sinkBufQueue] }
  | pop =>
      simp only [← h.sinkBufQueue]
      cases pool.sinkBufQueue with
      | nil => exact .none
      | cons b rest => exact .some { h with sinkBufQueue := rfl, sink := rfl }
  | write b => exact .some { h with sink := rfl }
  | reset b => exact .some { h with
      cur_ := update_rel SameFill h.cur_ rfl
      sink := rfl
      records := update_rel SameCount h.records rfl }
  | cacheTest b => exact .some { h with sink := by simp only [h.cacheBufQueue] }
  | delete b => exact .some { h with sink := rfl }
  | pushBack b => exact .some { h with
      cacheBufQueue := by simp only [h.cacheBufQueue]
      sink := rfl }
  | done => exact .none

/-- The buffer that `RingBufBG` holds is changed. -/
theorem modify (h : pool.Alike key pool') {f f' : SinkBuffer → SinkBuffer}
    (hf : ∀ b b', b.cur_ = b'.cur_ → (f b).cur_ = (f' b').cur_) :
    Option.Rel (Pool.Alike key) (pool.modify f) (pool'.modify f') := by
  simp only [Pool.modify, ← h.pBuffer]
  cases hb : pool.pBuffer with
  | none => exact .none
  | some b => exact .some { h with
      cur_ := update_rel SameFill h.cur_ (hf _ _ (h.cur_ b))
      pBuffer := rfl }

theorem append (h : pool.Alike key pool') {bs bs' : List Byte} {r r' : R}
    (hbs : bs.length = bs'.length) (hr : key r = key r') :
    Option.Rel (Pool.Alike key) (pool.append bs r) (pool'.append bs' r') := by
  simp only [Pool.append, ← h.pBuffer]
  cases hb : pool.pBuffer with
  | none => exact .none
  | some b =>
      refine .some { h with
        cur_ := update_rel SameFill h.cur_ ?_
        pBuffer := rfl
        records := update_rel SameCount h.records ?_
        drained := ?_ }
      · have hcur : _ = _ := h.cur_ b
        simp only [SameFill, SinkBuffer.append, hcur, hbs]
      · have hcount : _ = _ := h.records b
        simp only [SameCount, List.length_append, hcount, List.length_singleton]
      · rw [List.map_append, List.map_append, h.drained, List.map_singleton, List.map_singleton, hr]

theorem handOff (h : pool.Alike key pool') :
    Option.Rel (Pool.Alike key) (pool.handOff CacheBufQueueSize)
      (pool'.handOff CacheBufQueueSize) := by
  simp only [Pool.handOff, ← h.pBuffer, ← h.cacheBufQueue, ← h.allocNum, ← h.sinkBufQueue]
  cases hb : pool.pBuffer with
  | none => exact .none
  | some b =>
      have hpushes : (pool.pushes ++ [(b, (pool.heap b).contents)]).map
            (fun x => (x.1, x.2.length))
          = (pool'.pushes ++ [(b, (pool'.heap b).contents)]).map fun x => (x.1, x.2.length) := by
        rw [List.map_append, List.map_append, h.pushes]
        simp only [List.map_cons, List.map_nil, SinkBuffer.contents_length (h.cur_ b)]
      refine .some ?_
      cases pool.cacheBufQueue.getLast? with
      | some b' => exact { h with
          cacheBufQueue := rfl
          sinkBufQueue := rfl
          allocNum := rfl
          pBuffer := rfl
          pushes := hpushes }
      | none => exact { h with
          cacheBufQueue := rfl
          sinkBufQueue := rfl
          cur_ := update_rel SameFill h.cur_ rfl
          allocNum := rfl
          pBuffer := rfl
          records := update_rel SameCount h.records rfl
          pushes := hpushes }

theorem take (h : pool.Alike key pool') :
    Option.Rel (Pool.Alike key) pool.take pool'.take := by
  simp only [Pool.take, ← h.pBuffer, ← h.cacheBufQueue]
  split
  · exact .some { h with cacheBufQueue := rfl, pBuffer := rfl }
  · exact .none

theorem step (h : pool.Alike key pool') {c c' : PoolCmd R} (hc : c.Alike key c') :
    Option.Rel (Pool.Alike key) (Pool.step CacheBufQueueSize (.writer c) pool)
      (Pool.step CacheBufQueueSize (.writer c') pool') := by
  cases hc with
  | take => exact h.take
  | @store off bs bs' =>
      have hstore : ∀ b b' : SinkBuffer, b.cur_ = b'.cur_ →
          (b.store off bs).cur_ = (b'.store off bs').cur_ := fun _ _ hcur => hcur
      exact h.modify hstore
  | @add len =>
      have hadd : ∀ b b' : SinkBuffer, b.cur_ = b'.cur_ → (b.add len).cur_ = (b'.add len).cur_ :=
        fun _ _ hcur => congrArg (· + len) hcur
      exact h.modify hadd
  | append hbs hr => exact h.append hbs hr
  | handOff => exact h.handOff
  | exit => exact .some { h with sinkBufBGExit := rfl }

end Pool.Alike

end

/-! ## Two pipelines in step -/

variable {P : Params}

/-- What stands before `argData`. -/
def UncompressedEntry.header {n : Nat} (e : UncompressedEntry n) :
    BitVec 32 × BitVec 32 × BitVec 64 :=
  (e.fmtId, e.entrySize, e.timestamp)

theorem UncompressedEntry.header_eq_iff {n : Nat} {e e' : UncompressedEntry n} :
    e.header = e'.header
      ↔ e.fmtId = e'.fmtId ∧ e.entrySize = e'.entrySize ∧ e.timestamp = e'.timestamp := by
  rw [header, header, Prod.mk.injEq, Prod.mk.injEq]

/-- What slot `p` of ring `i` holds in the two runs that start from `arr` and
`arr'`: one header, and the arguments that the slot held at the start. -/
structure SlotAlike {n : Nat} (arr arr' : Nat → Nat → UncompressedEntry n) (i p : Nat)
    (e e' : UncompressedEntry n) : Prop where
  header : e.header = e'.header
  args : e.argData = (arr i p).argData
  args' : e'.argData = (arr' i p).argData

/-- A record but for its arguments. -/
def Record.key {n : Nat} (x : Record n) : Nat × BitVec 32 × BitVec 32 × BitVec 64 :=
  (x.ring, x.entry.header)

namespace Pipeline

structure Alike (arr arr' : Nat → Nat → UncompressedEntry P.argNum) (s s' : Pipeline P) :
    Prop where
  rings : ∀ i, (s.rings i).Alike (SlotAlike arr arr' i) (s'.rings i)
  adds : s.adds = s'.adds
  bg : s.bg = s'.bg
  pool : s.pool.Alike Record.key s'.pool
  drainIters : s.drainIters = s'.drainIters

variable {arr arr' : Nat → Nat → UncompressedEntry P.argNum}

theorem alike_main (h : ∀ i p, (arr i p).header = (arr' i p).header)
    (memory memory' : Nat → Nat → Byte) :
    Alike arr arr' (.main arr memory : Pipeline P) (.main arr' memory') where
  rings i := ⟨⟨rfl, rfl, fun p => ⟨h i p, rfl, rfl⟩⟩, .idle, .idle⟩
  adds := rfl
  bg := rfl
  pool := ⟨rfl, rfl, fun _ => rfl, rfl, rfl, rfl, rfl, fun _ => rfl, rfl, rfl⟩
  drainIters := rfl

namespace Alike

variable {s s' : Pipeline P}

theorem produce (h : s.Alike arr arr' s') {i : Nat}
    {c : ProducerCmd (UncompressedEntry P.argNum)} (hc : c.Keeps (SlotAlike arr arr' i))
    {f : Config (UncompressedEntry P.argNum) → AddThread}
    (hf : ∀ r r', r.producer.Alike r'.producer → f r = f r') :
    Option.Rel (Alike arr arr') (s.produce i c f) (s'.produce i c f) := by
  refine rel_map ((h.rings i).producerStep _ _ hc) ?_
  intro r r' hr
  exact { h with
    rings := update_rel (fun i => Config.Alike (SlotAlike arr arr' i)) h.rings hr
    adds := by rw [h.adds, hf r r' hr.producer] }

theorem consume (h : s.Alike arr arr' s') {c : ConsumerCmd (UncompressedEntry P.argNum)}
    (hc : c.InPlace) {f : Config (UncompressedEntry P.argNum) → RingBufBG}
    (hf : ∀ r r', r.consumer.Alike r'.consumer → f r = f r') :
    Option.Rel (Alike arr arr') (s.consume c f) (s'.consume c f) := by
  unfold Pipeline.consume
  rw [← h.bg]
  refine rel_map ((h.rings s.bg.index).consumerStep _ _ hc) ?_
  intro r r' hr
  exact { h with
    rings := update_rel (fun i => Config.Alike (SlotAlike arr arr' i)) h.rings hr
    bg := hf r r' hr.consumer }

theorem fill (h : s.Alike arr arr' s') {c c' : PoolCmd (Record P.argNum)}
    (hc : c.Alike Record.key c') (bg : RingBufBG) :
    Option.Rel (Alike arr arr') (s.fill c bg) (s'.fill c' bg) :=
  rel_map (h.pool.step hc) fun _ _ hpool => { h with bg := rfl, pool := hpool }

/-- The write of a field of the header. -/
theorem keeps_write {i : Nat} {f : UncompressedEntry P.argNum → UncompressedEntry P.argNum}
    (hheader : ∀ e e', e.header = e'.header → (f e).header = (f e').header)
    (hargs : ∀ e, (f e).argData = e.argData) :
    (ProducerCmd.write f).Keeps (SlotAlike arr arr' i) := by
  intro p e e' h
  exact ⟨hheader e e' h.header, (hargs e).trans h.args, (hargs e').trans h.args'⟩

theorem addStep (h : s.Alike arr arr' s') (i : Nat) (tsc : BitVec 64) :
    Option.Rel (Alike arr arr') (s.addStep i tsc) (s'.addStep i tsc) := by
  simp only [Pipeline.addStep, ← h.adds]
  cases hpc : (s.adds i).pc with
  | test => exact .some { h with adds := by rw [h.adds] }
  | rdtsc | finish =>
      refine h.produce ?_ fun _ _ _ => ?_
      · exact rfl
      · rfl
  | reserving | finishing =>
      refine h.produce ?_ fun r r' hr => ?_
      · exact trivial
      · generalize r.producer = producer at hr
        generalize r'.producer = producer' at hr
        cases hr <;> rfl
  | entrySize | fmtId | timestamp =>
      refine h.produce (keeps_write (fun e e' hheader => ?_) fun _ => ?_) fun _ _ _ => ?_
      · rw [UncompressedEntry.header_eq_iff] at hheader ⊢
        simp only [hheader, and_self]
      · rfl
      · rfl
  | done => exact .none

theorem stageBufPop (h : s.Alike arr arr' s') :
    Option.Rel (fun e e' => e.header = e'.header) s.stageBufPop s'.stageBufPop := by
  have hring := h.rings s.bg.index
  have hconsumer := hring.consumer
  simp only [Pipeline.stageBufPop, ← h.bg]
  generalize (s.rings s.bg.index).consumer = consumer at hconsumer
  generalize (s'.rings s.bg.index).consumer = consumer' at hconsumer
  cases hconsumer with
  | peeked => exact .some (hring.shared.arr _).header
  | _ => exact .none

theorem buffer (h : s.Alike arr arr' s') :
    Option.Rel (fun b b' => b.cur_ = b'.cur_) s.buffer? s'.buffer? := by
  rw [Pipeline.buffer?, Pipeline.buffer?, ← h.pool.pBuffer]
  cases s.pool.pBuffer with
  | none => exact .none
  | some b => exact .some (h.pool.cur_ b)

/-- A step of `RingBufBG` on local variables. -/
theorem local_bg (h : s.Alike arr arr' s') (bg : RingBufBG) :
    Option.Rel (Alike arr arr') (some { s with bg }) (some { s' with bg }) :=
  .some ⟨h.rings, h.adds, rfl, h.pool, h.drainIters⟩

/-- A command to the ring whose outcome `RingBufBG` does not look at. -/
theorem command (h : s.Alike arr arr' s') {c : ConsumerCmd (UncompressedEntry P.argNum)}
    (hc : c.InPlace) (bg : RingBufBG) :
    Option.Rel (Alike arr arr') (s.consume c fun _ => bg) (s'.consume c fun _ => bg) :=
  h.consume hc fun _ _ _ => rfl

theorem call (h : s.Alike arr arr' s') {c : ConsumerCall (UncompressedEntry P.argNum)}
    (hc : c.inPlace = true) (bg : RingBufBG) :
    Option.Rel (Alike arr arr') (s.consume (.call c) fun _ => bg)
      (s'.consume (.call c) fun _ => bg) :=
  h.command (c := .call c) hc bg

theorem bgStep (h : s.Alike arr arr' s') :
    Option.Rel (Alike arr arr') s.bgStep s'.bgStep := by
  simp only [Pipeline.bgStep, ← h.bg]
  cases hpc : s.bg.pc with
  | take => exact h.fill .take _
  | outer =>
      simp only
      split
      · exact h.local_bg _
      · exact h.local_bg _
  | forTest =>
      simp only
      split
      · exact h.call rfl _
      · exact h.local_bg _
  | peeking | consuming =>
      refine h.consume ?_ fun r r' hr => ?_
      · exact trivial
      · generalize r.consumer = consumer at hr
        generalize r'.consumer = consumer' at hr
        cases hr <;> rfl
  | peekTest =>
      simp only
      split
      · exact h.command (c := .drop) trivial _
      · exact h.local_bg _
  | copyTest =>
      simp only
      split
      · exact h.local_bg _
      · exact h.call rfl _
  | avail =>
      -- The test reads `entrySize` and `cur_`.
      refine rel_bind h.stageBufPop fun e e' he => rel_bind h.buffer fun b b' hb => ?_
      obtain ⟨-, hsize, -⟩ := UncompressedEntry.header_eq_iff.mp he
      simp only [SinkBuffer.avail, hsize, hb]
      exact h.command (c := .look) trivial _
  | fmtId | timestamp =>
      refine rel_bind h.stageBufPop fun e e' he => rel_bind h.buffer fun b b' hb => ?_
      simp only [SinkBuffer.current, hb]
      exact rel_bind (h.command (c := .look) trivial _) fun u u' hu => hu.fill .store _
  | add12 => exact h.fill .add _
  | append =>
      refine rel_bind h.stageBufPop fun e e' he => rel_bind (h.command (c := .read) trivial _) ?_
      intro u u' hu
      refine hu.fill (.append ?_ ?_) _
      · rw [Vector.length_toList, Vector.length_toList]
      · rw [Record.key, Record.key, he]
  | swapFull | flush => exact h.fill .handOff _
  | tally => exact h.local_bg _
  | iterEnd =>
      simp only
      split
      · exact h.local_bg _
      · exact .some ⟨h.rings, h.adds, rfl, h.pool, congrArg (· + 1) h.drainIters⟩
  | exitFlag => exact h.fill .exit _
  | done => exact .none

/-- The two runs enable the same steps and stay alike. -/
theorem step (h : s.Alike arr arr' s') (l : PipelineLabel) :
    Option.Rel (Alike arr arr') (Pipeline.step l s) (Pipeline.step l s') := by
  cases l with
  | add i tsc =>
      simp only [Pipeline.step]
      split
      · exact h.addStep i tsc
      · exact .none
  | bg => exact h.bgStep
  | sink => exact rel_map h.pool.sinkStep fun _ _ hpool => { h with pool := hpool }

theorem perform (h : s.Alike arr arr' s') (ls : List PipelineLabel) :
    Option.Rel (Alike arr arr') ((pipeline P).perform ls s) ((pipeline P).perform ls s') :=
  System.perform_rel (fun l _ _ hu => hu.step l) ls h

end Alike

/-! ## Where the arguments come from -/

/-- The pointer of `RingBufBG` is at the slot of the next record of its ring. -/
theorem stageBufPop_slot {s : Pipeline P} (h : (pipeline P).Reachable s)
    {e : UncompressedEntry P.argNum} (he : s.stageBufPop = some e) :
    e = s.ring.shared.arr (P.ringBufSize.slot s.ring.collected.length) := by
  unfold stageBufPop at he
  split at he
  · next n p taken hpeeked =>
      obtain ⟨rfl, -, -, -⟩ := peeked_reachable (ring_reachable h s.bg.index) hpeeked
      rw [Config.collected, hpeeked, List.length_append]
      exact (Option.some.inj he).symm
  · cases he

/-- A step drains nothing, or the record under the pointer. -/
theorem drained_step {s s' : Pipeline P} {l : PipelineLabel} (h : (pipeline P).Reachable s)
    (hstep : Pipeline.step l s = some s') :
    s'.pool.drained = s.pool.drained ∨ ∃ e, s.stageBufPop = some e
      ∧ s'.pool.drained = s.pool.drained ++ [⟨s.bg.index, s.drainIters, e⟩] := by
  have hcoupled := coupled h
  cases step_moves hstep with
  | add _ hmove => exact .inl (congrArg Pool.drained hmove.frame.2.1)
  | sink hpool => exact .inl ((Pool.step_moves hpool).drained_eq (by simp))
  | bg hmove =>
      by_cases hpc : s.bg.pc = .append
      · obtain ⟨e, he, hdrained, -⟩ := hcoupled.append_step hmove hpc
        exact .inr ⟨e, he, hdrained⟩
      · exact .inl (hcoupled.collected_step h hmove hpc).2

/-- Every record drained has the arguments that its slot had at the start. -/
def DrainsArgs (arr : Nat → Nat → UncompressedEntry P.argNum) (s : Pipeline P) : Prop :=
  ∀ i m e, (s.pool.drainedFrom i)[m]? = some e →
    e.argData = (arr i (P.ringBufSize.slot m)).argData

/-- The record drained next is at the position of its ring that comes next. -/
theorem DrainsArgs.step {s s' : Pipeline P} (h : s.DrainsArgs arr) (halike : s.Alike arr arr s)
    (hreach : (pipeline P).Reachable s) {l : PipelineLabel}
    (hstep : Pipeline.step l s = some s') : s'.DrainsArgs arr := by
  intro i m e he
  rcases drained_step hreach hstep with hsame | ⟨e', he', hnext⟩
  · rw [Pool.drainedFrom, hsame] at he
    exact h i m e he
  · rw [drainedFrom_concat hnext] at he
    by_cases hi : s.bg.index = i
    · subst hi
      rw [if_pos rfl, List.getElem?_append] at he
      split at he
      · exact h _ _ e he
      · next hge =>
          obtain ⟨hlt, rfl⟩ := List.getElem?_eq_some_iff.mp he
          obtain rfl : m = (s.pool.drainedFrom s.bg.index).length := by
            rw [List.length_singleton] at hlt
            omega
          rw [List.getElem_singleton, stageBufPop_slot hreach he', (drains hreach).collected]
          exact ((halike.rings _).shared.arr _).args
    · rw [if_neg hi, List.append_nil] at he
      exact h i m e he

theorem drainsArgs {memory : Nat → Nat → Byte} {s : Pipeline P}
    (h : (pipeline P).Steps (.main arr memory) s) : s.DrainsArgs arr := by
  have hmain : (pipeline P).Reachable (.main arr memory) := .of_init ⟨arr, memory, rfl⟩
  -- That the slots keep their arguments is that the run is alike itself.
  have hboth : s.Alike arr arr s ∧ s.DrainsArgs arr := by
    refine h.invariant (I := fun s => s.Alike arr arr s ∧ s.DrainsArgs arr) hmain
      ⟨alike_main (fun _ _ => rfl) memory memory, fun i m e he => ?_⟩ ?_
    · cases he
    · intro l u u' hreach hu hstep
      refine ⟨?_, hu.2.step hu.1 hreach hstep⟩
      have hnext := hu.1.step l
      rw [show Pipeline.step l u = some u' from hstep] at hnext
      cases hnext with
      | some halike => exact halike
  exact hboth.2

end Pipeline

/-! ## Records in the buffers pushed -/

/-- The records handed over that came from ring `i`. -/
def Pool.handedOverFrom {n : Nat} (pool : Pool (Record n)) (i : Nat) :
    List (UncompressedEntry n) :=
  (pool.handedOver.filter fun x => x.ring = i).map Record.entry

/-- What is drained is handed over or in the current buffer. -/
theorem Pool.Conserved.handedOver_append {R : Type} {pool : Pool R} (h : pool.Conserved) :
    pool.handedOver ++ pool.current = pool.drained :=
  h.drained_eq

theorem Pool.Conserved.handedOverFrom_prefix {n : Nat} {pool : Pool (Record n)}
    (h : pool.Conserved) (i : Nat) : pool.handedOverFrom i <+: pool.drainedFrom i := by
  have hinit : pool.handedOver <+: pool.drained := ⟨pool.current, h.handedOver_append⟩
  exact (hinit.filter _).map _

theorem Pool.Alike.handedOver {n : Nat} {pool pool' : Pool (Record n)}
    (h : pool.Alike Record.key pool') (hcons : pool.Conserved) (hcons' : pool'.Conserved) :
    pool.handedOver.map Record.key = pool'.handedOver.map Record.key := by
  have hcurrent : pool.current.length = pool'.current.length := by
    rw [Pool.current, Pool.current, ← h.pBuffer]
    cases pool.pBuffer with
    | none => rfl
    | some b =>
        have hcount : _ = _ := h.records b
        simp only [Option.toList_some, List.flatMap_singleton, hcount]
  have hdrained := h.drained
  rw [← hcons.handedOver_append, ← hcons'.handedOver_append, List.map_append,
    List.map_append] at hdrained
  exact List.append_inj_left' hdrained (by rw [List.length_map, List.length_map, hcurrent])

theorem Pipeline.Batches.handedOver {s : Pipeline P} {batches : List (List (Record P.argNum))}
    (h : s.Batches batches) (hcons : s.pool.Conserved) : s.pool.handedOver = batches.flatten :=
  List.append_cancel_right (hcons.handedOver_append.trans h.drained.symm)

theorem encodeAll_flatten {n : Nat} (batches : List (List (Record n))) :
    (batches.map encodeAll).flatten = encodeAll batches.flatten := by
  induction batches with
  | nil => rfl
  | cons records batches ih =>
      rw [List.map_cons, List.flatten_cons, ih, List.flatten_cons, encodeAll_append]

theorem UncompressedEntry.encode_inj {n : Nat} {e e' : UncompressedEntry n}
    (h : e.header = e'.header) : e.encode = e'.encode ↔ e.argData = e'.argData := by
  obtain ⟨hfmtId, -, htimestamp⟩ := header_eq_iff.mp h
  rw [encode, encode, hfmtId, htimestamp, List.append_right_inj, Vector.toList_inj]

/-- The bytes of records that agree but for their arguments agree when the
arguments do. -/
theorem encodeAll_inj {n : Nat} {xs ys : List (Record n)}
    (h : xs.map Record.key = ys.map Record.key) :
    encodeAll xs = encodeAll ys
      ↔ xs.map (fun x => x.entry.argData) = ys.map fun x => x.entry.argData := by
  induction xs generalizing ys with
  | nil =>
      obtain rfl := List.map_eq_nil_iff.mp h.symm
      exact iff_of_true rfl rfl
  | cons x xs ih =>
      cases ys with
      | nil => cases h
      | cons y ys =>
          obtain ⟨hkey, hrest⟩ := List.cons.inj h
          have hlength : x.entry.encode.length = y.entry.encode.length := by
            rw [UncompressedEntry.encode_length, UncompressedEntry.encode_length]
          rw [List.map_cons, List.map_cons, List.cons.injEq, ← ih hrest,
            ← UncompressedEntry.encode_inj (Prod.mk.inj hkey).2]
          refine ⟨fun hbytes => List.append_inj hbytes hlength, fun hboth => ?_⟩
          obtain ⟨hhead, htail⟩ := hboth
          rw [encodeAll, encodeAll, List.flatMap_cons, List.flatMap_cons, hhead]
          exact congrArg _ htail

/-- Two lists with the same keys agree when the parts with each key do. -/
theorem map_eq_iff_filter {α β κ : Type} [DecidableEq κ] {key : α → κ} {f : α → β}
    {xs ys : List α} (h : xs.map key = ys.map key) :
    xs.map f = ys.map f
      ↔ ∀ k, (xs.filter fun x => key x = k).map f = (ys.filter fun y => key y = k).map f := by
  induction xs generalizing ys with
  | nil =>
      obtain rfl := List.map_eq_nil_iff.mp h.symm
      exact iff_of_true rfl fun _ => rfl
  | cons x xs ih =>
      cases ys with
      | nil => cases h
      | cons y ys =>
          obtain ⟨hkey, hrest⟩ := List.cons.inj h
          rw [List.map_cons, List.map_cons, List.cons.injEq, ih hrest]
          refine ⟨fun hboth k => ?_, fun hall => ?_⟩
          · obtain ⟨hhead, htail⟩ := hboth
            by_cases hk : key x = k
            · simp [← hkey, hk, hhead, htail k]
            · simp [← hkey, hk, htail k]
          · have hself := hall (key x)
            simp only [hkey, decide_true, List.filter_cons_of_pos, List.map_cons,
              List.cons.injEq] at hself
            refine ⟨hself.1, fun k => ?_⟩
            have hother := hall k
            by_cases hk : key x = k
            · rw [← hk, hkey]
              exact hself.2
            · simpa [← hkey, hk] using hother

/-! ## The bytes pushed in two runs -/

/-- Buffers with the same names and sizes are equal when their bytes, one
after the other, are. -/
theorem Pool.Alike.pushes_eq_iff {R K : Type} {key : R → K} {pool pool' : Pool R}
    (h : pool.Alike key pool') :
    pool.pushes = pool'.pushes
      ↔ (pool.pushes.map Prod.snd).flatten = (pool'.pushes.map Prod.snd).flatten := by
  have hnames := congrArg (List.map Prod.fst) h.pushes
  have hsizes := congrArg (List.map Prod.snd) h.pushes
  simp only [List.map_map] at hnames hsizes
  refine ⟨fun heq => by rw [heq], fun hbytes => ?_⟩
  have hbuffers : pool.pushes.map Prod.snd = pool'.pushes.map Prod.snd := by
    rw [List.eq_iff_flatten_eq, List.map_map, List.map_map]
    exact ⟨hbytes, hsizes⟩
  rw [List.zip_of_prod (l := pool.pushes.map Prod.fst) rfl hbuffers]
  exact (List.zip_of_prod hnames.symm rfl).symm

namespace Pipeline

variable {arr : Nat → Nat → UncompressedEntry P.argNum}

theorem pushes_flatten {s : Pipeline P} (h : (pipeline P).Reachable s) :
    (s.pool.pushes.map Prod.snd).flatten = encodeAll s.pool.handedOver := by
  obtain ⟨batches, hbatches, -⟩ := exists_batches (q := fun _ => True) (fun _ _ _ => trivial) h
  rw [hbatches.pushes, hbatches.handedOver (conserved h), encodeAll_flatten]

theorem handedOverFrom_argData {memory : Nat → Nat → Byte} {s : Pipeline P}
    (h : (pipeline P).Steps (.main arr memory) s) (hcons : s.pool.Conserved) (i : Nat) :
    (s.pool.handedOverFrom i).map (fun e => e.argData)
      = (List.range (s.pool.handedOverFrom i).length).map
        fun m => (arr i (P.ringBufSize.slot m)).argData := by
  refine List.ext_getElem (by simp) ?_
  intro m hm hm'
  rw [List.length_map] at hm
  rw [List.getElem_map, List.getElem_map, List.getElem_range]
  obtain ⟨rest, hrest⟩ := hcons.handedOverFrom_prefix i
  refine drainsArgs h i m _ ?_
  rw [← hrest, List.getElem?_append_left hm, List.getElem?_eq_getElem hm]

end Pipeline

theorem Pool.Alike.handedOver_ring {n : Nat} {pool pool' : Pool (Record n)}
    (h : pool.Alike Record.key pool') (hcons : pool.Conserved) (hcons' : pool'.Conserved) :
    pool.handedOver.map Record.ring = pool'.handedOver.map Record.ring := by
  have hkeys := congrArg (List.map Prod.fst) (h.handedOver hcons hcons')
  rwa [List.map_map, List.map_map] at hkeys

/-- From each ring both runs have handed over equally many records. -/
theorem Pool.Alike.handedOverFrom_length {n : Nat} {pool pool' : Pool (Record n)}
    (h : pool.Alike Record.key pool') (hcons : pool.Conserved) (hcons' : pool'.Conserved)
    (i : Nat) : (pool.handedOverFrom i).length = (pool'.handedOverFrom i).length := by
  have hrings := h.handedOver_ring hcons hcons'
  have hparts := congrArg List.length ((map_eq_iff_filter hrings).mp hrings i)
  rw [List.length_map, List.length_map] at hparts
  rw [Pool.handedOverFrom, Pool.handedOverFrom, List.length_map, List.length_map, hparts]

/-- The records handed over have the same bytes when those of each ring have
the same arguments. -/
theorem Pool.Alike.encodeAll_iff {n : Nat} {pool pool' : Pool (Record n)}
    (h : pool.Alike Record.key pool') (hcons : pool.Conserved) (hcons' : pool'.Conserved) :
    encodeAll pool.handedOver = encodeAll pool'.handedOver
      ↔ ∀ i, (pool.handedOverFrom i).map (fun e => e.argData)
        = (pool'.handedOverFrom i).map fun e => e.argData := by
  rw [encodeAll_inj (h.handedOver hcons hcons'),
    map_eq_iff_filter (h.handedOver_ring hcons hcons')]
  simp only [Pool.handedOverFrom, List.map_map]
  rfl

/-- Two runs under one schedule, from rings whose slots differ in `argData`
only and from any memory of the buffers: both keep the schedule, and push the
same bytes if and only if every slot out of which a record was pushed held
the same `argData` at the start. Which slots these are the schedule alone says:
the `m`-th record of a ring comes out of the slot of position `m`. -/
theorem pushes_same_iff {arr arr' : Nat → Nat → UncompressedEntry P.argNum}
    (hheader : ∀ i p, (arr i p).header = (arr' i p).header)
    (memory memory' : Nat → Nat → Byte) {ls : List PipelineLabel} {s : Pipeline P}
    (h : (pipeline P).perform ls (.main arr memory) = some s) :
    ∃ s' : Pipeline P, (pipeline P).perform ls (.main arr' memory') = some s'
      ∧ (s.pool.pushes = s'.pool.pushes
        ↔ ∀ i m, m < (s.pool.handedOverFrom i).length →
          (arr i (P.ringBufSize.slot m)).argData = (arr' i (P.ringBufSize.slot m)).argData) := by
  have hrel := (Pipeline.alike_main hheader memory memory').perform ls
  rw [h] at hrel
  obtain ⟨s', h', halike⟩ := exists_of_rel hrel
  have hsteps := System.steps_of_perform h
  have hsteps' := System.steps_of_perform h'
  have hreach : (pipeline P).Reachable s := ⟨_, ⟨arr, memory, rfl⟩, hsteps⟩
  have hreach' : (pipeline P).Reachable s' := ⟨_, ⟨arr', memory', rfl⟩, hsteps'⟩
  have hcons := Pipeline.conserved hreach
  have hcons' := Pipeline.conserved hreach'
  refine ⟨s', h', ?_⟩
  calc s.pool.pushes = s'.pool.pushes
      ↔ encodeAll s.pool.handedOver = encodeAll s'.pool.handedOver := by
        rw [halike.pool.pushes_eq_iff, Pipeline.pushes_flatten hreach,
          Pipeline.pushes_flatten hreach']
    _ ↔ ∀ i, (s.pool.handedOverFrom i).map (fun e => e.argData)
          = (s'.pool.handedOverFrom i).map fun e => e.argData :=
        halike.pool.encodeAll_iff hcons hcons'
    _ ↔ ∀ i m, m < (s.pool.handedOverFrom i).length →
          (arr i (P.ringBufSize.slot m)).argData = (arr' i (P.ringBufSize.slot m)).argData := by
        refine forall_congr' fun i => ?_
        rw [Pipeline.handedOverFrom_argData hsteps hcons,
          Pipeline.handedOverFrom_argData hsteps' hcons',
          halike.pool.handedOverFrom_length hcons hcons', List.map_inj_left]
        simp only [List.mem_range]

/-- As the tiny pipeline, with records as the source has them, of which one
fills a buffer. -/
def Params.small : Params := { Params.tiny with
  argNum := 4
  sinkBufferSize := 17
  header := Params.source.header
  size_pos := Nat.succ_pos 16
  size_lt := by decide
  entrySize_ge := Params.source.entrySize_ge }

/-- The start of the small pipeline: every byte of every `argData` is `arg`,
and every byte of the buffers `byte`. -/
def Pipeline.small (arg byte : Byte) : Pipeline .small :=
  .main (fun _ _ => ⟨0#32, 0#32, 0#64, .replicate 4 arg⟩) fun _ _ => byte

/-- The producer adds both records; `RingBufBG` copies the first and exchanges
the buffer that it fills. -/
def smallSchedule : List PipelineLabel := schedule [(.add 0 5#64, 27), (.bg, 18)]

/-- The memory of the buffers does not show in what is pushed. -/
theorem pushes_same_iff_small :
    ∃ s s' : Pipeline .small,
      (pipeline .small).perform smallSchedule (.small 1#8 0#8) = some s
      ∧ (pipeline .small).perform smallSchedule (.small 1#8 9#8) = some s'
      ∧ s.pool.pushes.length = 1 ∧ s.pool.pushes = s'.pool.pushes := by
  have hpushed : ((pipeline .small).perform smallSchedule (.small 1#8 0#8)).map
      (fun s => s.pool.pushes.length) = some 1 := by decide +kernel
  obtain ⟨s, hs, hlength⟩ := Option.map_eq_some_iff.mp hpushed
  obtain ⟨s', hs', hsame⟩ := pushes_same_iff (fun _ _ => rfl) _ (fun _ _ => 9#8) hs
  exact ⟨s, s', hs, hs', hlength, hsame.mpr fun _ _ _ => rfl⟩

/-- Two runs that differ in `argData` at the start alone push different bytes:
those that stood in the slot when the ring was allocated. -/
theorem stale_arguments_pushed :
    ∃ s s' : Pipeline .small,
      (pipeline .small).perform smallSchedule (.small 0#8 0#8) = some s
      ∧ (pipeline .small).perform smallSchedule (.small 1#8 0#8) = some s'
      ∧ s.pool.pushes = [(0, [7, 0, 0, 0, 5, 0, 0, 0, 0, 0, 0, 0, 0, 0, 0, 0])]
      ∧ s'.pool.pushes = [(0, [7, 0, 0, 0, 5, 0, 0, 0, 0, 0, 0, 0, 1, 1, 1, 1])]
      ∧ s.pool.pushes ≠ s'.pool.pushes := by
  have hzero : ((pipeline .small).perform smallSchedule (.small 0#8 0#8)).map
      (fun s => s.pool.pushes)
      = some [(0, [7, 0, 0, 0, 5, 0, 0, 0, 0, 0, 0, 0, 0, 0, 0, 0])] := by decide +kernel
  have hone : ((pipeline .small).perform smallSchedule (.small 1#8 0#8)).map
      (fun s => s.pool.pushes)
      = some [(0, [7, 0, 0, 0, 5, 0, 0, 0, 0, 0, 0, 0, 1, 1, 1, 1])] := by decide +kernel
  obtain ⟨s, hs, hpushes⟩ := Option.map_eq_some_iff.mp hzero
  obtain ⟨s', hs', hpushes'⟩ := Option.map_eq_some_iff.mp hone
  refine ⟨s, s', hs, hs', hpushes, hpushes', ?_⟩
  rw [hpushes, hpushes']
  decide

end LockFreeRingBuf
