import Mathlib.Data.BitVec
import Mathlib.Data.Nat.ModEq

/-!
# Wrapping counters over a power-of-two ring

Two `w`-bit counters count up forever and wrap at `2 ^ w`; a ring of `c`
slots, `c` a power of two, is addressed by masking a counter with `c - 1`.
Everything here is stated through the *unbounded* positions the counters
stand for: `BitVec.ofNat w p` is the counter at position `p`. As long as
the two positions are at most `c` apart, the wrapped differences and the
masked indices are the true ones (`sub_ofNat`, `free_ofNat`,
`and_mask_ofNat`), and positions of one window occupy different slots
(`mod_inj_of_lt`).
-/

namespace Counter

variable {w : Nat}

/-! ## Differences of wrapped counters -/

/-- The wrapped difference of two counters is their true distance, on both
sides of the wrap. -/
theorem sub_ofNat {p c : Nat} (hcp : c ≤ p) (hlt : p - c < 2 ^ w) :
    (BitVec.ofNat w p - BitVec.ofNat w c).toNat = p - c := by
  have hofNat : BitVec.ofNat w p - BitVec.ofNat w c = BitVec.ofNat w (p - c) := by
    have hp : p = (p - c) + c := by omega
    rw [BitVec.sub_eq_iff_eq_add, ← BitVec.ofNat_add, ← hp]
  rw [hofNat, BitVec.toNat_ofNat, Nat.mod_eq_of_lt hlt]

/-- The free space `cap - in + out`, computed with wrap-around, is the
capacity less the true distance. -/
theorem free_ofNat {cap : BitVec w} {p c : Nat} (hcp : c ≤ p)
    (hle : p - c ≤ cap.toNat) :
    (cap - BitVec.ofNat w p + BitVec.ofNat w c).toNat = cap.toNat - (p - c) := by
  have hlt := cap.isLt
  have hregroup : cap - BitVec.ofNat w p + BitVec.ofNat w c
      = cap - (BitVec.ofNat w p - BitVec.ofNat w c) := sub_add _ _ _
  have hsub := sub_ofNat (w := w) hcp (by omega)
  rw [hregroup, BitVec.toNat_sub_of_le (by rw [BitVec.le_def, hsub]; exact hle), hsub]

theorem ofNat_add_bits (p : Nat) (n : BitVec w) :
    BitVec.ofNat w p + n = BitVec.ofNat w (p + n.toNat) := by
  rw [BitVec.ofNat_add, BitVec.ofNat_toNat, BitVec.setWidth_eq]

/-! ## Power-of-two capacities -/

/-- `(c) > 0 && ((c) & ((c) - 1)) == 0`, read on unsigned numbers. -/
def PowerOfTwo (c : BitVec w) : Prop := 0#w < c ∧ c &&& (c - 1#w) = 0#w

instance (c : BitVec w) : Decidable (PowerOfTwo c) := inferInstanceAs (Decidable (_ ∧ _))

theorem PowerOfTwo.pos {c : BitVec w} (h : PowerOfTwo c) : 0 < c.toNat := by
  have hpos := h.1
  rwa [BitVec.lt_def, BitVec.toNat_zero] at hpos

theorem PowerOfTwo.toNat_sub_one {c : BitVec w} (h : PowerOfTwo c) :
    (c - 1#w).toNat = c.toNat - 1 := by
  have hpos := h.pos
  have hlt := c.isLt
  have hone : (1#w).toNat = 1 := by
    rw [BitVec.toNat_ofNat, Nat.mod_eq_of_lt (by omega)]
  rw [BitVec.toNat_sub_of_le (by rw [BitVec.le_def, hone]; exact hpos), hone]

theorem PowerOfTwo.exists_pow {c : BitVec w} (h : PowerOfTwo c) :
    ∃ k, k < w ∧ c.toNat = 2 ^ k := by
  have hand : c.toNat &&& (c.toNat - 1) = 0 := by
    rw [← h.toNat_sub_one, ← BitVec.toNat_and, h.2, BitVec.toNat_zero]
  obtain ⟨k, hk⟩ :=
    (Nat.and_sub_one_eq_zero_iff_isPowerOfTwo (Nat.pos_iff_ne_zero.mp h.pos)).mp hand
  refine ⟨k, ?_, hk⟩
  have hlt := c.isLt
  rw [hk] at hlt
  exact (Nat.pow_lt_pow_iff_right (by omega)).mp hlt

/-- Masking a counter gives the slot of the position it stands for. -/
theorem PowerOfTwo.and_mask_ofNat {c : BitVec w} (h : PowerOfTwo c) (p : Nat) :
    (BitVec.ofNat w p &&& (c - 1#w)).toNat = p % c.toNat := by
  obtain ⟨k, hk, hc⟩ := h.exists_pow
  rw [BitVec.toNat_and, h.toNat_sub_one, hc, Nat.and_two_pow_sub_one_eq_mod,
    BitVec.toNat_ofNat, Nat.mod_mod_of_dvd _ (Nat.pow_dvd_pow 2 (Nat.le_of_lt hk))]

/-! ## Slots of a window -/

/-- Positions less than one ring apart occupy different slots. -/
theorem mod_inj_of_lt {c i j lo : Nat} (hi : lo ≤ i) (hj : lo ≤ j)
    (hic : i < lo + c) (hjc : j < lo + c) (h : i % c = j % c) : i = j := by
  rcases Nat.le_total i j with hij | hij
  · have hd : c ∣ j - i := (Nat.modEq_iff_dvd' hij).mp h
    have hz := Nat.eq_zero_of_dvd_of_lt hd (by omega)
    omega
  · have hd : c ∣ i - j := (Nat.modEq_iff_dvd' hij).mp h.symm
    have hz := Nat.eq_zero_of_dvd_of_lt hd (by omega)
    omega

/-- Before the array end, the slot `i` places on is the index plus `i`. -/
theorem mod_add_of_lt {c p i : Nat} (h : p % c + i < c) : (p + i) % c = p % c + i := by
  rw [Nat.add_mod, Nat.mod_eq_of_lt (Nat.lt_of_le_of_lt (Nat.le_add_left _ _) h),
    Nat.mod_eq_of_lt h]

/-- Past the array end, the slots start again from zero. -/
theorem mod_add_of_wrap {c p i : Nat} (hc : 0 < c) (hi : i < c) :
    (p + (c - p % c) + i) % c = i := by
  have hp := Nat.mod_lt p hc
  have hsplit : p + (c - p % c) + i = i + c * (p / c + 1) := by
    have hdiv := Nat.div_add_mod p c
    rw [Nat.mul_add, Nat.mul_one]
    omega
  rw [hsplit, Nat.add_mul_mod_self_left, Nat.mod_eq_of_lt hi]

/-- A pointer walk that restarts at the array end visits successive slots. -/
theorem mod_succ {c p : Nat} (hc : 0 < c) :
    (if p % c + 1 = c then 0 else p % c + 1) = (p + 1) % c := by
  have hp := Nat.mod_lt p hc
  split
  · next h =>
      have hwrap := mod_add_of_wrap (p := p) (i := 0) hc hc
      rw [show p + (c - p % c) + 0 = p + 1 by omega] at hwrap
      exact hwrap.symm
  · next h => rw [mod_add_of_lt (by omega)]

end Counter
