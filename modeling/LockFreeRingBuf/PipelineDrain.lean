import LockFreeRingBuf.PipelineRings
import Mathlib.Algebra.BigOperators.Group.Finset.Basic
import Mathlib.Algebra.Order.BigOperators.Group.Finset

/-!
# The records drained and the count of them

`Drains` follows each record from its ring to the pool: what was copied out
of ring `i` is what its consumer has consumed and taken, a prefix of what
its producer published, and `j` counts the copies up to those of the
iteration in progress. The sum over the rings then settles the exit test.
-/

namespace LockFreeRingBuf

open Bytes Resumption Transition

variable {P : Params}

/-- The entries copied out of ring `i`, in the order they were copied. -/
def Pool.drainedFrom {n : Nat} (pool : Pool (Record n)) (i : Nat) : List (UncompressedEntry n) :=
  (pool.drained.filter fun x => x.ring = i).map Record.entry

/-- The records copied out and not yet counted in `j`. -/
def RingBufBG.uncounted (bg : RingBufBG) : Int :=
  match bg.pc with
  | .forTest => bg.nPerItr
  | .peeking => bg.nPerItr
  | .peekTest => bg.nPerItr
  | .copyTest => bg.nPerItr + bg.n.toInt - bg.count
  | .avail => bg.nPerItr + bg.n.toInt - bg.count
  | .fmtId => bg.nPerItr + bg.n.toInt - bg.count
  | .timestamp => bg.nPerItr + bg.n.toInt - bg.count
  | .add12 => bg.nPerItr + bg.n.toInt - bg.count
  | .append => bg.nPerItr + bg.n.toInt - bg.count
  | .swapFull => bg.nPerItr + bg.n.toInt - bg.count
  | .consuming => bg.nPerItr + bg.n.toInt
  | .tally => bg.nPerItr + bg.n.toInt
  | .iterEnd => bg.nPerItr
  | _ => 0

namespace Pipeline

structure Drains (s : Pipeline P) : Prop where
  collected : ∀ i, s.pool.drainedFrom i = (s.rings i).collected
  ordered : ∀ i, (s.rings i).collected <+: (s.rings i).shared.published
  ring_lt : ∀ x ∈ s.pool.drained, x.ring < P.threadNum
  counted : (s.pool.drained.length : Int) = s.bg.j + s.bg.uncounted
  j_nonneg : 0 ≤ s.bg.j
  nPerItr_nonneg : 0 ≤ s.bg.nPerItr
  exited : s.bg.pc = .exitFlag ∨ s.bg.pc = .done → (P.addNum * P.threadNum : Nat) ≤ s.bg.j

variable {s s' : Pipeline P}

/-! ## One step -/

/-- A producer gives nothing up, only adds to what it has published, and
leaves the pool and `RingBufBG` alone. -/
theorem AddMoves.frame {i : Nat} {tsc : BitVec 64} (hmove : s.AddMoves i tsc s') :
    (∀ k, (s'.rings k).collected = (s.rings k).collected
        ∧ (s.rings k).shared.published <+: (s'.rings k).shared.published)
      ∧ s'.pool = s.pool ∧ s'.bg = s.bg := by
  refine ⟨fun k => ?_, ?_⟩
  · obtain ⟨hcons, hconsumed, hpub⟩ := hmove.ring_frame k
    rw [Config.collected, Config.collected, hcons, hconsumed]
    exact ⟨rfl, hpub⟩
  · cases hmove <;> exact ⟨rfl, rfl⟩

theorem setRing_collected
    {r : Config (UncompressedEntry P.argNum)} (h : r.collected = s.ring.collected) (i : Nat) :
    (s.setRing r i).collected = (s.rings i).collected := by
  by_cases hi : i = s.bg.index
  · subst hi
    rw [setRing, Function.update_self]
    exact h
  · rw [setRing, Function.update_of_ne hi]

/-- The entry that `append` copies is the one its ring gives up. -/
theorem Coupled.append_step (h : s.Coupled) (hmove : s.BgMoves s') (hpc : s.bg.pc = .append) :
    ∃ e, s.stageBufPop = some e
      ∧ s'.pool.drained = s.pool.drained ++ [⟨s.bg.index, s.drainIters, e⟩]
      ∧ (∀ i, (s'.rings i).collected
          = (s.rings i).collected ++ if s.bg.index = i then [e] else [])
      ∧ ∃ n p taken, (s'.rings s.bg.index).consumer = .peeked n p taken := by
  have hat := h.bg
  simp only [RingBufBG.At, hpc] at hat
  obtain ⟨⟨p, taken, hpeeked, -⟩, -⟩ := hat
  cases hmove with
  | @append e r pool _ he hr hpool =>
      obtain ⟨hnext, -, hcollected⟩ := read_steps hpeeked (Config.consumerStep_moves _ _ hr)
      have heq := he
      simp only [stageBufPop, hpeeked, Option.some.injEq] at heq
      subst heq
      refine ⟨_, he, ?_, fun i => ?_, ?_⟩
      · cases Pool.step_moves hpool with
        | append hb => rfl
      · by_cases hi : s.bg.index = i
        · subst hi
          simpa only [setRing, Function.update_self, if_true] using hcollected
        · simp only [setRing, Function.update_of_ne (Ne.symm hi), if_neg hi, List.append_nil]
      · simp only [setRing, Function.update_self]
        exact ⟨_, _, _, hnext⟩
  | _ =>
      have hpc' := ‹s.bg.pc = _›
      rw [hpc] at hpc'
      cases hpc'

/-- A step of `RingBufBG` other than `append` copies nothing, and no ring
gives anything up. -/
theorem Coupled.collected_step (h : s.Coupled) (hreach : (pipeline P).Reachable s)
    (hmove : s.BgMoves s') (hpc : s.bg.pc ≠ .append) :
    (∀ i, (s'.rings i).collected = (s.rings i).collected) ∧ s'.pool.drained = s.pool.drained := by
  have hring := ring_reachable hreach s.bg.index
  have hat := h.bg
  cases hmove with
  | take _ hpool | fmtId _ _ _ hpool | timestamp _ _ _ hpool | add12 _ hpool
  | swapFull _ hpool | flush _ hpool | exitFlag _ hpool =>
      -- The pool is told something else than `append`.
      exact ⟨fun _ => rfl, (Pool.step_moves hpool).drained_eq (by simp)⟩
  | append hpc' => exact absurd hpc' hpc
  | peek hpc _ hr =>
      simp only [RingBufBG.At, hpc] at hat
      obtain ⟨-, hsame⟩ := peek_calls hat (Config.consumerStep_moves _ _ hr)
      exact ⟨setRing_collected hsame, rfl⟩
  | peeking hpc hr _ | peeked hpc hr _ =>
      simp only [RingBufBG.At, hpc] at hat
      obtain ⟨p, hrun, hp⟩ := hat
      obtain ⟨-, hsame⟩ := peek_steps hring hrun hp (Config.consumerStep_moves _ _ hr)
      exact ⟨setRing_collected hsame, rfl⟩
  | skip hpc _ hr =>
      simp only [RingBufBG.At, hpc] at hat
      obtain ⟨p, hpeeked⟩ := hat
      obtain ⟨-, hsame⟩ := drop_steps hpeeked (Config.consumerStep_moves _ _ hr)
      exact ⟨setRing_collected hsame, rfl⟩
  | release hpc hpos hr =>
      simp only [RingBufBG.At, hpc] at hat
      obtain ⟨⟨p, taken, hpeeked, hcount⟩, hge⟩ := hat
      have hn := h.toInt_n (by rw [hpc]; rfl)
      obtain ⟨-, hsame⟩ := consume_calls hpeeked (k := s.bg.n) (by omega)
        (Config.consumerStep_moves _ _ hr)
      exact ⟨setRing_collected hsame, rfl⟩
  | consuming hpc hr _ | consumed hpc hr _ =>
      simp only [RingBufBG.At, hpc] at hat
      obtain ⟨-, hsame⟩ := hat.step (counters_reachable hring) (Config.consumerStep_moves _ _ hr)
      exact ⟨setRing_collected hsame, rfl⟩
  | _ => exact ⟨fun _ => rfl, rfl⟩

/-- What `j` and the local counts say of the number of copies, across a step. -/
theorem Coupled.counted_step (h : s.Coupled) (hmove : s.BgMoves s')
    (hn : 0 ≤ s.bg.nPerItr) :
    (s.bg.j + s.bg.uncounted + (if s.bg.pc = .append then 1 else 0) = s'.bg.j + s'.bg.uncounted)
      ∧ s.bg.j ≤ s'.bg.j ∧ 0 ≤ s'.bg.nPerItr := by
  have hat := h.bg
  have hbatch := h.toInt_n
  cases hmove with
  | release hpc hpos _ =>
      simp only [RingBufBG.At, hpc] at hat
      simp only [RingBufBG.uncounted, hpc, reduceCtorEq, if_false]
      omega
  | append hpc _ _ _ =>
      simp only [RingBufBG.uncounted, hpc, if_true]
      omega
  | tally hpc =>
      have hn' := hbatch (by rw [hpc]; rfl)
      simp only [RingBufBG.uncounted, hpc, reduceCtorEq, if_false]
      omega
  | _ =>
      have hpc := ‹s.bg.pc = _›
      simp only [RingBufBG.uncounted, hpc, reduceCtorEq, if_false, true_and]
      omega

/-- Only the end of an iteration changes `j`. -/
theorem BgMoves.j_eq (hmove : s.BgMoves s') (hpc : s.bg.pc ≠ .iterEnd) : s'.bg.j = s.bg.j := by
  cases hmove with
  | idleIter hpc' | drainIter hpc' | flushIter hpc' => exact absurd hpc' hpc
  | _ => rfl

/-- The outer loop is left when its test fails, and `j` stands from then on. -/
theorem BgMoves.exited (hmove : s.BgMoves s')
    (h : s.bg.pc = .exitFlag ∨ s.bg.pc = .done → (P.addNum * P.threadNum : Nat) ≤ s.bg.j)
    (hpc : s'.bg.pc = .exitFlag ∨ s'.bg.pc = .done) :
    (P.addNum * P.threadNum : Nat) ≤ s'.bg.j := by
  cases hmove with
  | leave _ hge => exact Int.not_lt.mp hge
  | exitFlag hpc' _ => exact h (.inl hpc')
  | peeking hpc' | consuming hpc' => simp [hpc'] at hpc
  | _ => simp at hpc

/-- One more record of ring `k` is one more entry drained from ring `k`. -/
theorem drainedFrom_concat {n : Nat} {pool pool' : Pool (Record n)} {x : Record n}
    (h : pool'.drained = pool.drained ++ [x]) (i : Nat) :
    pool'.drainedFrom i = pool.drainedFrom i ++ if x.ring = i then [x.entry] else [] := by
  simp only [Pool.drainedFrom, h, List.filter_append, List.map_append]
  by_cases hx : x.ring = i
  · simp [hx]
  · simp [hx]

namespace Drains

/-- The step that copies a record. -/
theorem append_step (h : s.Drains) (hc : s.Coupled) (hreach : (pipeline P).Reachable s')
    (hmove : s.BgMoves s') (hpc : s.bg.pc = .append) : s'.Drains := by
  obtain ⟨hcount, hj, hn⟩ := hc.counted_step hmove h.nPerItr_nonneg
  obtain ⟨e, -, hdrained, hrings, n, p, taken, hpeeked⟩ := hc.append_step hmove hpc
  refine ⟨fun i => ?_, fun i => ?_, fun x hx => ?_, ?_, Int.le_trans h.j_nonneg hj, hn,
    hmove.exited h.exited⟩
  · rw [drainedFrom_concat hdrained, h.collected, hrings]
  · by_cases hi : s.bg.index = i
    · subst hi
      rw [Config.collected, hpeeked]
      exact (peeked_reachable (ring_reachable hreach _) hpeeked).2.2.1
    · rw [hrings, if_neg hi, List.append_nil, (hmove.ring_frame _).2]
      exact h.ordered i
  · rw [hdrained] at hx
    rcases List.mem_append.mp hx with hx | hx
    · exact h.ring_lt x hx
    · obtain rfl := List.mem_singleton.mp hx
      exact hc.index (by rw [hpc]; rfl)
  · rw [hdrained, List.length_append, ← hcount, if_pos hpc, ← h.counted]
    rfl

theorem bg_step (h : s.Drains) (hc : s.Coupled) (hreach : (pipeline P).Reachable s)
    (hreach' : (pipeline P).Reachable s') (hmove : s.BgMoves s') : s'.Drains := by
  by_cases hpc : s.bg.pc = .append
  · exact h.append_step hc hreach' hmove hpc
  · obtain ⟨hrings, hdrained⟩ := hc.collected_step hreach hmove hpc
    obtain ⟨hcount, hj, hn⟩ := hc.counted_step hmove h.nPerItr_nonneg
    rw [if_neg hpc, Int.add_zero] at hcount
    refine ⟨fun i => ?_, fun i => ?_, by rw [hdrained]; exact h.ring_lt, ?_,
      Int.le_trans h.j_nonneg hj, hn, hmove.exited h.exited⟩
    · rw [hrings, ← h.collected, Pool.drainedFrom, hdrained]
      rfl
    · rw [hrings, (hmove.ring_frame _).2]
      exact h.ordered i
    · rw [hdrained, ← hcount]
      exact h.counted

theorem add_step (h : s.Drains) {i : Nat} {tsc : BitVec 64} (hmove : s.AddMoves i tsc s') :
    s'.Drains := by
  obtain ⟨hrings, hpool, hbg⟩ := hmove.frame
  refine ⟨fun k => ?_, fun k => ?_, by rw [hpool]; exact h.ring_lt, ?_, ?_, ?_, ?_⟩
  · rw [hpool, (hrings k).1]
    exact h.collected k
  · rw [(hrings k).1]
    exact (h.ordered k).trans (hrings k).2
  · rw [hpool, hbg]
    exact h.counted
  · rw [hbg]
    exact h.j_nonneg
  · rw [hbg]
    exact h.nPerItr_nonneg
  · rw [hbg]
    exact h.exited

theorem main (arr : Nat → Nat → UncompressedEntry P.argNum) (memory : Nat → Nat → Byte) :
    (Pipeline.main arr memory : Pipeline P).Drains where
  collected _ := rfl
  ordered _ := List.prefix_rfl
  ring_lt _ hx := by cases hx
  counted := rfl
  j_nonneg := Int.le_refl 0
  nPerItr_nonneg := Int.le_refl 0
  exited hpc := by rcases hpc with hpc | hpc <;> cases hpc

end Drains

/-! ## Every reachable state -/

theorem drains (h : (pipeline P).Reachable s) : s.Drains := by
  refine h.invariant (I := Drains) ?_ ?_
  · rintro s ⟨arr, memory, rfl⟩
    exact .main arr memory
  · intro l u u' hreach hu hstep
    cases step_moves hstep with
    | add _ hmove => exact hu.add_step hmove
    | bg hmove => exact hu.bg_step (coupled hreach) hreach (hreach.step hstep) hmove
    | sink hpool =>
        have hdrained := (Pool.step_moves hpool).drained_eq (by simp)
        refine ⟨fun i => ?_, hu.ordered, by rw [hdrained]; exact hu.ring_lt, ?_, hu.j_nonneg,
          hu.nPerItr_nonneg, hu.exited⟩
        · rw [Pool.drainedFrom, hdrained]
          exact hu.collected i
        · rw [hdrained]
          exact hu.counted

/-- The records drained are those the rings have given up. -/
theorem Drains.length_eq (h : s.Drains) :
    s.pool.drained.length = ∑ i ∈ Finset.range P.threadNum, (s.rings i).collected.length := by
  have hmem : ∀ i ∈ (s.pool.drained.map Record.ring : Multiset Nat),
      i ∈ Finset.range P.threadNum := by
    intro i hi
    obtain ⟨x, hx, rfl⟩ := List.mem_map.mp hi
    exact Finset.mem_range.mpr (h.ring_lt x hx)
  have hcard := Multiset.sum_count_eq_card hmem
  rw [Multiset.coe_card, List.length_map] at hcard
  rw [← hcard]
  refine Finset.sum_congr rfl ?_
  intro i _
  rw [← h.collected, Pool.drainedFrom, List.length_map, ← List.countP_eq_length_filter,
    Multiset.coe_count, List.count_eq_countP, List.countP_map]
  rfl

theorem collected_le (h : (pipeline P).Reachable s) (i : Nat) :
    (s.rings i).collected.length ≤ P.addNum :=
  Nat.le_trans ((drains h).ordered i).length_le ((coupled h).adds i).published_le

theorem sum_addNum : ∑ _i ∈ Finset.range P.threadNum, P.addNum = P.addNum * P.threadNum := by
  rw [Finset.sum_const_nat fun _ _ => rfl, Finset.card_range, Nat.mul_comm]

theorem drained_le (h : (pipeline P).Reachable s) :
    s.pool.drained.length ≤ P.addNum * P.threadNum := by
  rw [(drains h).length_eq, ← sum_addNum]
  exact Finset.sum_le_sum fun i _ => collected_le h i

/-- When as many records were drained as are ever published, each ring has
given up all of its own. -/
theorem collected_full (h : (pipeline P).Reachable s)
    (hfull : s.pool.drained.length = P.addNum * P.threadNum) {i : Nat} (hi : i < P.threadNum) :
    (s.rings i).collected.length = P.addNum := by
  have hall := (Finset.sum_eq_sum_iff_of_le (s := Finset.range P.threadNum)
    fun i _ => collected_le h i).mp
  rw [← (drains h).length_eq, sum_addNum] at hall
  exact hall hfull i (Finset.mem_range.mpr hi)

/-- The records of the iteration in progress are never fewer than none. -/
theorem uncounted_nonneg (h : (pipeline P).Reachable s) : 0 ≤ s.bg.uncounted := by
  have hn := (drains h).nPerItr_nonneg
  have hat := (coupled h).bg
  have hbatch := (coupled h).toInt_n
  unfold RingBufBG.uncounted
  cases hpc : s.bg.pc with
  | take | outer | flush | exitFlag | done => exact Int.le_refl 0
  | forTest | peeking | peekTest | iterEnd => exact hn
  | consuming | tally =>
      have hnat := hbatch (by rw [hpc]; rfl)
      simp only
      omega
  | _ =>
      simp only [RingBufBG.At, hpc] at hat
      have hle := hat.1.count_le
      simp only
      omega

/-- When the loop has been left, all records have been drained. -/
theorem drained_full (h : (pipeline P).Reachable s)
    (hpc : s.bg.pc = .exitFlag ∨ s.bg.pc = .done) :
    s.pool.drained.length = P.addNum * P.threadNum := by
  have hcounted := (drains h).counted
  have hge := (drains h).exited hpc
  have hle := drained_le h
  have huncounted := uncounted_nonneg h
  omega

/-- Only the last store of a copy and the end of an iteration change `uncounted`. -/
theorem uncounted_step (h : (pipeline P).Reachable s) (hmove : s.BgMoves s')
    (hpc : s.bg.pc ≠ .iterEnd) :
    s'.bg.uncounted = s.bg.uncounted + if s.bg.pc = .append then 1 else 0 := by
  obtain ⟨hcount, -, -⟩ := (coupled h).counted_step hmove (drains h).nPerItr_nonneg
  rw [hmove.j_eq hpc] at hcount
  omega

theorem uncounted_eq (h : (pipeline P).Reachable s) (hmove : s.BgMoves s')
    (happend : s.bg.pc ≠ .append) (hend : s.bg.pc ≠ .iterEnd) :
    s'.bg.uncounted = s.bg.uncounted := by
  rw [uncounted_step h hmove hend, if_neg happend, Int.add_zero]

end Pipeline

/-- At every head of the outer loop `j` is the number of records consumed
from all rings; it never exceeds `AddNum * ThreadNum`, and neither do the
sums on the way to it; and when the loop has been left every producer has
published all its records, every ring is empty, and all of the records
were copied out. -/
theorem drain_count_exact {s : Pipeline P} (h : (pipeline P).Reachable s) :
    (s.bg.pc = .outer →
        s.bg.j = (∑ i ∈ Finset.range P.threadNum, (s.rings i).shared.consumed.length : Nat))
      ∧ (0 ≤ s.bg.j ∧ s.bg.j ≤ (P.addNum * P.threadNum : Nat))
      ∧ (s.bg.pc = .iterEnd → 0 ≤ s.bg.nPerItr
          ∧ s.bg.j + s.bg.nPerItr ≤ (P.addNum * P.threadNum : Nat))
      ∧ (s.bg.pc = .exitFlag ∨ s.bg.pc = .done →
          (∀ i, i < P.threadNum → (s.rings i).shared.published.length = P.addNum
            ∧ (s.rings i).shared.consumed = (s.rings i).shared.published
            ∧ (s.rings i).shared.in_ = (s.rings i).shared.out)
          ∧ s.pool.drained.length = P.addNum * P.threadNum) := by
  have hdrains := Pipeline.drains h
  have hcoupled := Pipeline.coupled h
  have hcounted := hdrains.counted
  have hle := Pipeline.drained_le h
  have huncounted := Pipeline.uncounted_nonneg h
  have hidle : s.ring.consumer = .idle →
      ∀ i, (s.rings i).collected = (s.rings i).shared.consumed := by
    intro hidle i
    rw [Config.collected, hcoupled.all_idle hidle i]
    exact List.append_nil _
  have hat := hcoupled.bg
  refine ⟨fun hpc => ?_, ⟨hdrains.j_nonneg, by omega⟩, fun hpc => ?_, fun hpc => ?_⟩
  · simp only [RingBufBG.At, hpc] at hat
    simp only [RingBufBG.uncounted, hpc, Int.add_zero] at hcounted
    rw [← hcounted, hdrains.length_eq]
    simp only [hidle hat]
  · simp only [RingBufBG.uncounted, hpc] at hcounted
    exact ⟨hdrains.nPerItr_nonneg, by omega⟩
  · have hfull := Pipeline.drained_full h hpc
    have hrest : s.ring.consumer = .idle := by
      rcases hpc with hpc | hpc <;> simpa only [RingBufBG.At, hpc] using hat
    refine ⟨fun i hi => ?_, hfull⟩
    have hlen := Pipeline.collected_full h hfull hi
    have hprefix := hdrains.ordered i
    have hpublished := (hcoupled.adds i).published_le
    have hcount := counters_reachable (Pipeline.ring_reachable h i)
    rw [hidle hrest] at hlen hprefix
    have hall := hprefix.eq_of_length_le (by omega)
    exact ⟨by rw [← hall, hlen], hall, by rw [hcount.in_eq, hcount.out_eq, hall]⟩

/-- Both records of the only producer have been drained when the loop is left. -/
theorem drain_count_exact_tiny :
    let s := Pipeline.tinyAfter [(.add 0 5#64, 27), (.bg, 31)]
    s.bg.pc = .exitFlag ∧ s.pool.drained.length = 2 ∧ (s.rings 0).shared.published.length = 2
      ∧ (s.rings 0).shared.in_ = (s.rings 0).shared.out := by
  intro s
  have hreach : (pipeline .tiny).Reachable s := Pipeline.tinyAfter_reachable _
  have hexit : s.bg.pc = .exitFlag := by decide +kernel
  obtain ⟨-, -, -, hexited⟩ := drain_count_exact hreach
  obtain ⟨hrings, hdrained⟩ := hexited (.inl hexit)
  obtain ⟨hpublished, -, hempty⟩ := hrings 0 Nat.zero_lt_one
  exact ⟨hexit, hdrained, hpublished, hempty⟩

end LockFreeRingBuf
