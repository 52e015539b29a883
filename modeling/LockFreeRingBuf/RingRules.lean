import LockFreeRingBuf.RingThreads

/-!
# Rules for one side of the ring among the other's steps

What each thread may rely on and what it owes, on the memory and the two
histories. `Counters` ties the wrapped counters to the unbounded
positions; `Produces` and `Consumes` are the effects of a step of either
thread as the other sees them. `Offering` is what the producer knows
inside a call (how far the consumer has got at least, and how many of the
offered values already stand in their slots), `Taking` what the consumer
knows (how far the producer has got at least, and which slots it has
emptied). Each survives every step of the other thread, and the access
rules at the end say how each access changes it.
-/

namespace LockFreeRingBuf

open Resumption Transition

variable {T : Type} {capacity : Capacity}

/-! ## Positions -/

/-- The number of elements published and not yet consumed. -/
def Shared.level (s : Shared T) : Nat := s.published.length - s.consumed.length

/-- Slot `i` holds a published and not yet consumed element. -/
def Shared.InWindow (capacity : Capacity) (s : Shared T) (i : Nat) : Prop :=
  ∃ j, s.consumed.length ≤ j ∧ j < s.published.length ∧ capacity.slot j = i

/-- The counters stand for the lengths of the histories, at most one ring
apart, and what was consumed is what was published first. -/
structure Counters (capacity : Capacity) (s : Shared T) : Prop where
  in_eq : s.in_ = BitVec.ofNat 32 s.published.length
  out_eq : s.out = BitVec.ofNat 32 s.consumed.length
  room : s.published.length ≤ s.consumed.length + capacity.size
  ordered : s.consumed <+: s.published

namespace Counters

variable {s : Shared T}

theorem le (h : Counters capacity s) : s.consumed.length ≤ s.published.length :=
  h.ordered.length_le

theorem level_le (h : Counters capacity s) : s.level ≤ capacity.size := by
  have hroom := h.room
  unfold Shared.level
  omega

/-- `in - out`, with wrap-around, counts the elements. -/
theorem sub_toNat (h : Counters capacity s) : (s.in_ - s.out).toNat = s.level := by
  have hle := capacity.size_le
  have hroom := h.room
  rw [h.in_eq, h.out_eq, Counter.sub_ofNat h.le (by omega), Shared.level]

/-- `capacity - in + out`, with wrap-around, counts the free slots. -/
theorem free_toNat (h : Counters capacity s) :
    (capacity.val - s.in_ + s.out).toNat = capacity.size - s.level := by
  have hroom := h.room
  rw [h.in_eq, h.out_eq, Counter.free_ofNat h.le (by unfold Capacity.size at hroom; omega)]
  rfl

end Counters

/-! ## The effect of a step as the other thread sees it -/

/-- A step of the producer: nothing in the window is overwritten, and what
becomes visible stands in its slots. -/
structure Produces (capacity : Capacity) (s s' : Shared T) : Prop where
  counters : Counters capacity s'
  consumed : s'.consumed = s.consumed
  published : s.published <+: s'.published
  window : ∀ j, s.consumed.length ≤ j → j < s.published.length →
    s'.arr (capacity.slot j) = s.arr (capacity.slot j)
  fresh : ∀ j, s.published.length ≤ j → j < s'.published.length →
    s'.published[j]? = some (s'.arr (capacity.slot j))

/-- A step of the consumer: nothing outside the window is written. -/
structure Consumes (capacity : Capacity) (s s' : Shared T) : Prop where
  counters : Counters capacity s'
  published : s'.published = s.published
  consumed : s.consumed.length ≤ s'.consumed.length
  free : ∀ j, s.published.length ≤ j → j < s.consumed.length + capacity.size →
    s'.arr (capacity.slot j) = s.arr (capacity.slot j)

theorem Counters.produces {s : Shared T} (h : Counters capacity s) : Produces capacity s s where
  counters := h
  consumed := rfl
  published := List.prefix_rfl
  window := fun _ _ _ => rfl
  fresh := fun _ hj hj' => absurd hj' (Nat.not_lt.mpr hj)

theorem Counters.consumes {s : Shared T} (h : Counters capacity s) : Consumes capacity s s where
  counters := h
  published := rfl
  consumed := Nat.le_refl _
  free := fun _ _ _ => rfl

/-! ## What the producer knows inside a call -/

/-- The producer has published `pub`, offers `offer`, has seen `lo` elements
consumed, and has stored the first `n` offered values in the next slots. -/
structure Offering (capacity : Capacity) (s : Shared T) (pub offer : List T) (lo n : Nat) :
    Prop where
  counters : Counters capacity s
  published : s.published = pub
  lo_le : lo ≤ s.consumed.length
  room : pub.length + n ≤ lo + capacity.size
  staged : ∀ x, x < n → offer[x]? = some (s.arr (capacity.slot (pub.length + x)))

/-- Between calls nothing is staged, whatever is offered next. -/
theorem Counters.offering {s : Shared T} (h : Counters capacity s) (offer : List T) :
    Offering capacity s s.published offer s.consumed.length 0 where
  counters := h
  published := rfl
  lo_le := Nat.le_refl _
  room := h.room
  staged _ hx := absurd hx (Nat.not_lt_zero _)

namespace Offering

variable {s s' : Shared T} {pub offer : List T} {lo n : Nat}

theorem consumes (h : Offering capacity s pub offer lo n) (hs : Consumes capacity s s') :
    Offering capacity s' pub offer lo n where
  counters := hs.counters
  published := hs.published.trans h.published
  lo_le := Nat.le_trans h.lo_le hs.consumed
  room := h.room
  staged x hx := by
    have hroom := h.room
    have hlo := h.lo_le
    rw [h.staged x hx, hs.free]
    · rw [h.published]; omega
    · omega

/-- What the producer reads of `out` bounds the consumer from below. -/
theorem raise (h : Offering capacity s pub offer lo n) :
    Offering capacity s pub offer s.consumed.length n where
  counters := h.counters
  published := h.published
  lo_le := Nat.le_refl _
  room := Nat.le_trans h.room (Nat.add_le_add_right h.lo_le _)
  staged := h.staged

/-- The next slot is free, so it may be written. -/
theorem not_inWindow (h : Offering capacity s pub offer lo n)
    (hroom : pub.length + n < lo + capacity.size) :
    ¬ s.InWindow capacity (capacity.slot (pub.length + n)) := by
  rintro ⟨j, hcj, hjp, hslot⟩
  have hlo := h.lo_le
  rw [h.published] at hjp
  have hj := capacity.slot_inj s.consumed.length hcj (by omega) (by omega) (by omega) hslot
  omega

/-- Storing the next offered value touches no other staged or visible slot. -/
theorem store (h : Offering capacity s pub offer lo n) {t : T} (ht : offer[n]? = some t)
    (hroom : pub.length + n < lo + capacity.size) :
    let s' := { s with arr := setSlot s.arr (capacity.slot (pub.length + n)) t }
    Produces capacity s s' ∧ Offering capacity s' pub offer lo (n + 1) := by
  have hlo := h.lo_le
  have hle := h.counters.le
  rw [h.published] at hle
  have hcounters : Counters capacity
      { s with arr := setSlot s.arr (capacity.slot (pub.length + n)) t } :=
    ⟨h.counters.in_eq, h.counters.out_eq, h.counters.room, h.counters.ordered⟩
  refine ⟨⟨hcounters, rfl, List.prefix_rfl, ?_, ?_⟩, ⟨hcounters, h.published, hlo, hroom, ?_⟩⟩
  · intro j hcj hjp
    exact setSlot_of_ne _ (fun heq => h.not_inWindow hroom ⟨j, hcj, hjp, heq⟩) _
  · intro j hj hj'
    exact absurd hj' (Nat.not_lt.mpr hj)
  · intro x hx
    rcases Nat.lt_or_eq_of_le (Nat.le_of_lt_succ hx) with hxn | rfl
    · have hne : capacity.slot (pub.length + x) ≠ capacity.slot (pub.length + n) := by
        intro heq
        have := capacity.slot_inj pub.length (by omega) (by omega) (by omega) (by omega) heq
        omega
      rw [h.staged x hxn]
      exact congrArg some (setSlot_of_ne _ hne _).symm
    · rw [ht]
      exact congrArg some (setSlot_self _ _ _).symm

/-- A reserved slot counts as staged with whatever stands in it. -/
theorem reserve (h : Offering capacity s pub [] lo 0) (hroom : pub.length < lo + capacity.size) :
    Offering capacity s pub [s.arr (capacity.slot pub.length)] lo 1 where
  counters := h.counters
  published := h.published
  lo_le := h.lo_le
  room := hroom
  staged x hx := by
    obtain rfl : x = 0 := by omega
    rfl

/-- Writing to the reserved slot through the returned pointer. -/
theorem write {v : T} (f : T → T) (h : Offering capacity s pub [v] lo 1) :
    let i := capacity.slot pub.length
    let s' := { s with arr := setSlot s.arr i (f (s.arr i)) }
    ¬ s.InWindow capacity i ∧ Produces capacity s s' ∧ Offering capacity s' pub [f v] lo 1 := by
  have hv : s.arr (capacity.slot pub.length) = v :=
    (Option.some.inj (h.staged 0 Nat.one_pos)).symm
  have hfree : Offering capacity s pub [f v] lo 0 :=
    { h with room := Nat.le_of_succ_le h.room, staged := fun x hx => absurd hx (Nat.not_lt_zero x) }
  simp only [hv]
  exact ⟨hfree.not_inWindow h.room, hfree.store rfl h.room⟩

/-- Bumping `in` past the staged values publishes exactly them. -/
theorem publish (elem : Element T) (h : Offering capacity s pub offer lo n)
    (hn : n ≤ offer.length) :
    let s' := (s.produce elem offer (.writeIn (BitVec.ofNat 32 (pub.length + n)))).1
    Produces capacity s s' ∧ Offering capacity s' (pub ++ offer.take n) (offer.drop n) lo 0
      ∧ (s.produce elem offer (.writeIn (BitVec.ofNat 32 (pub.length + n)))).2
        = offer.drop n := by
  have hlo := h.lo_le
  have hroom := h.room
  have hsize := capacity.size_le
  have hcount : (BitVec.ofNat 32 (pub.length + n) - s.in_).toNat = n := by
    have hle := h.counters.le
    have hroom' := h.counters.room
    rw [h.published] at hle hroom'
    rw [h.counters.in_eq, h.published, Counter.sub_ofNat (by omega) (by omega)]
    omega
  have htake : (offer.take n).length = n := by
    rw [List.length_take]; omega
  have hcounters : Counters capacity
      { s with
        in_ := BitVec.ofNat 32 (pub.length + n)
        published := s.published ++ offer.take n } := by
    refine ⟨?_, h.counters.out_eq, ?_, h.counters.ordered.trans (List.prefix_append _ _)⟩
    · simp [h.published, htake]
    · simp only [List.length_append, h.published, htake]; omega
  simp only [Shared.produce, hcount]
  refine ⟨⟨hcounters, rfl, List.prefix_append _ _, fun _ _ _ => rfl, ?_⟩,
    ⟨hcounters, by rw [h.published], hlo, ?_, fun x hx => absurd hx (Nat.not_lt_zero x)⟩, trivial⟩
  · intro j hj hj'
    simp only [List.length_append, h.published, htake] at hj hj'
    obtain ⟨x, rfl⟩ := Nat.exists_eq_add_of_le hj
    have hx : x < n := by omega
    rw [List.getElem?_append_right (by rw [h.published]; exact hj), h.published,
      Nat.add_sub_cancel_left, List.getElem?_take_of_lt hx, h.staged x hx]
  · rw [List.length_append, htake]; omega

end Offering

/-! ## What the consumer knows inside a call -/

/-- The consumer has consumed `con`, has taken `taken` and not released it,
has seen `hi` elements published, and has emptied at most the first `n`
slots of the window. -/
structure Taking (capacity : Capacity) (s : Shared T) (con taken : List T) (hi n : Nat) :
    Prop where
  counters : Counters capacity s
  consumed : s.consumed = con
  hi_le : hi ≤ s.published.length
  taken_le : con.length + taken.length ≤ hi
  taken_eq : con ++ taken <+: s.published
  emptied : n ≤ taken.length
  slots : ∀ j, con.length + n ≤ j → j < s.published.length →
    s.published[j]? = some (s.arr (capacity.slot j))

namespace Taking

variable {s s' : Shared T} {con taken : List T} {hi n : Nat}

theorem produces (h : Taking capacity s con taken hi n) (hs : Produces capacity s s') :
    Taking capacity s' con taken hi n where
  counters := hs.counters
  consumed := hs.consumed.trans h.consumed
  hi_le := Nat.le_trans h.hi_le hs.published.length_le
  taken_le := h.taken_le
  taken_eq := h.taken_eq.trans hs.published
  emptied := h.emptied
  slots j hj hj' := by
    rcases Nat.lt_or_ge j s.published.length with hold | hnew
    · rw [hs.window j (by rw [h.consumed]; omega) hold, ← h.slots j hj hold]
      obtain ⟨l, hl⟩ := hs.published
      rw [← hl, List.getElem?_append_left hold]
    · exact hs.fresh j hnew hj'

/-- Values that were read and not moved out of may be given up. -/
theorem forget (h : Taking capacity s con taken hi 0) : Taking capacity s con [] hi 0 where
  counters := h.counters
  consumed := h.consumed
  hi_le := h.hi_le
  taken_le := Nat.le_trans (Nat.le_add_right _ _) h.taken_le
  taken_eq := by
    rw [List.append_nil]
    exact (List.prefix_append con taken).trans h.taken_eq
  emptied := Nat.zero_le _
  slots := h.slots

/-- What the consumer reads of `in` bounds the producer from below. -/
theorem raise (h : Taking capacity s con taken hi n) :
    Taking capacity s con taken s.published.length n :=
  { h with hi_le := Nat.le_refl _, taken_le := Nat.le_trans h.taken_le h.hi_le }

/-- The next slot to take holds a visible element. -/
theorem next_inWindow (h : Taking capacity s con taken hi n)
    (hlt : con.length + taken.length < hi) :
    s.InWindow capacity (capacity.slot (con.length + taken.length)) :=
  ⟨_, by rw [h.consumed]; omega, Nat.lt_of_lt_of_le hlt h.hi_le, rfl⟩

/-- The next slot to take holds the next published value. -/
theorem next_eq (h : Taking capacity s con taken hi n)
    (hlt : con.length + taken.length < hi) :
    s.published[con.length + taken.length]?
      = some (s.arr (capacity.slot (con.length + taken.length))) :=
  h.slots _ (Nat.add_le_add_left h.emptied _) (Nat.lt_of_lt_of_le hlt h.hi_le)

/-- Taking the next value extends the prefix. -/
theorem taken_next (h : Taking capacity s con taken hi n)
    (hlt : con.length + taken.length < hi) :
    con ++ (taken ++ [s.arr (capacity.slot (con.length + taken.length))]) <+: s.published := by
  rw [← List.append_assoc]
  refine (List.prefix_iff_getElem?.mpr fun i hi' => ?_)
  rcases Nat.lt_or_ge i (con ++ taken).length with hold | hnew
  · rw [List.getElem_append_left hold]
    exact (List.prefix_iff_getElem?.mp h.taken_eq) i hold
  · have hi'' : i = con.length + taken.length := by
      simp only [List.length_append, List.length_cons, List.length_nil] at hi' hnew
      omega
    subst hi''
    rw [h.next_eq hlt, List.getElem_append_right hnew]
    simp

/-- Reading the next slot without emptying it. -/
theorem read (h : Taking capacity s con taken hi n)
    (hlt : con.length + taken.length < hi) :
    Taking capacity s con (taken ++ [s.arr (capacity.slot (con.length + taken.length))]) hi n where
  counters := h.counters
  consumed := h.consumed
  hi_le := h.hi_le
  taken_le := by simp only [List.length_append, List.length_cons, List.length_nil]; omega
  taken_eq := h.taken_next hlt
  emptied := by rw [List.length_append]; exact Nat.le_add_right_of_le h.emptied
  slots := h.slots

/-- Moving out of the next slot: the slot may hold anything afterwards. -/
theorem move (h : Taking capacity s con taken hi n) (x : T)
    (hlt : con.length + taken.length < hi) :
    let i := capacity.slot (con.length + taken.length)
    let s' := { s with arr := setSlot s.arr i x }
    Consumes capacity s s'
      ∧ Taking capacity s' con (taken ++ [s.arr i]) hi (taken.length + 1) := by
  have hcounters : Counters capacity { s with
      arr := setSlot s.arr (capacity.slot (con.length + taken.length)) x } :=
    ⟨h.counters.in_eq, h.counters.out_eq, h.counters.room, h.counters.ordered⟩
  have hroom := h.counters.room
  have hhi := h.hi_le
  have hother : ∀ j, con.length + taken.length < j → j < con.length + capacity.size →
      setSlot s.arr (capacity.slot (con.length + taken.length)) x (capacity.slot j)
        = s.arr (capacity.slot j) := by
    intro j hj hj'
    refine setSlot_of_ne _ (fun heq => ?_) _
    have := capacity.slot_inj con.length (by omega) (by omega) (by omega) (by omega) heq
    omega
  rw [h.consumed] at hroom
  refine ⟨⟨hcounters, rfl, Nat.le_refl _, ?_⟩, ⟨hcounters, h.consumed, hhi, ?_, h.taken_next hlt,
    by simp, ?_⟩⟩
  · intro j hj hj'
    rw [h.consumed] at hj'
    exact hother j (by omega) hj'
  · simp only [List.length_append, List.length_cons, List.length_nil]; omega
  · intro j hj hj'
    have hn := h.emptied
    simp only at hj' ⊢
    rw [hother j (by omega) (by omega)]
    exact h.slots j (by omega) hj'

/-- Bumping `out` past `k` taken values releases exactly them. -/
theorem bump (elem : Element T) (h : Taking capacity s con taken hi n) {k : Nat}
    (hk : k ≤ taken.length) (hn : n ≤ k) :
    let r := s.release elem taken (.writeOut (BitVec.ofNat 32 (con.length + k))) ()
    Consumes capacity s r.1 ∧ Taking capacity r.1 (con ++ taken.take k) (taken.drop k) hi 0
      ∧ r.2 = taken.drop k := by
  have hroom := h.counters.room
  have hhi := h.hi_le
  have htk := h.taken_le
  have hsize := capacity.size_le
  rw [h.consumed] at hroom
  have hcount : (BitVec.ofNat 32 (con.length + k) - s.out).toNat = k := by
    rw [h.counters.out_eq, h.consumed, Counter.sub_ofNat (by omega) (by omega)]
    omega
  have htake : (taken.take k).length = k := by
    rw [List.length_take]; omega
  have hprefix : con ++ taken.take k <+: s.published :=
    ((List.prefix_append_right_inj con).mpr (List.take_prefix k taken)).trans h.taken_eq
  have hcounters : Counters capacity
      { s with
        out := BitVec.ofNat 32 (con.length + k)
        consumed := s.consumed ++ taken.take k } := by
    refine ⟨h.counters.in_eq, ?_, ?_, by rw [h.consumed]; exact hprefix⟩
    · simp [h.consumed, htake]
    · simp only [List.length_append, h.consumed, htake]; omega
  simp only [Shared.release, hcount]
  refine ⟨⟨hcounters, rfl, by simp, fun _ _ _ => rfl⟩,
    ⟨hcounters, by rw [h.consumed], hhi, ?_, ?_, Nat.zero_le _, ?_⟩, trivial⟩
  · rw [List.length_append, List.length_drop, htake]; omega
  · rw [List.append_assoc, List.take_append_drop]; exact h.taken_eq
  · intro j hj hj'
    rw [List.length_append, htake] at hj
    exact h.slots j (by omega) hj'

end Taking

end LockFreeRingBuf
