import Mathlib.Data.List.Basic

/-!
# Bytes in an array

An array of bytes as a function of the offset. `writeAt` stores a list of
bytes, `readAt` reads a window back; a window reads what was written to it
(`readAt_writeAt`), is untouched by writes beside it
(`readAt_writeAt_of_disjoint`) and splits anywhere (`readAt_add`).
-/

namespace Bytes

abbrev Byte := BitVec 8

/-- The first `n` bytes of a number, least significant first. -/
def littleEndian {w : Nat} (n : Nat) (v : BitVec w) : List Byte :=
  (List.range n).map fun i => v.extractLsb' (8 * i) 8

@[simp] theorem littleEndian_length {w : Nat} (n : Nat) (v : BitVec w) :
    (littleEndian n v).length = n := by
  simp [littleEndian]

/-- Store `bs` from offset `off` on. -/
def writeAt (m : Nat → Byte) (off : Nat) (bs : List Byte) : Nat → Byte :=
  fun i => if off ≤ i then bs[i - off]?.getD (m i) else m i

/-- The `n` bytes from offset `off` on. -/
def readAt (m : Nat → Byte) (off n : Nat) : List Byte :=
  (List.range n).map fun i => m (off + i)

variable {m : Nat → Byte} {off n k : Nat} {bs : List Byte}

@[simp] theorem readAt_length : (readAt m off n).length = n := by
  simp [readAt]

theorem readAt_getElem? {i : Nat} (h : i < n) : (readAt m off n)[i]? = some (m (off + i)) := by
  simp [readAt, h]

theorem readAt_congr {m' : Nat → Byte} (h : ∀ i, off ≤ i → i < off + n → m' i = m i) :
    readAt m' off n = readAt m off n := by
  refine List.map_congr_left ?_
  intro i hi
  have hin := List.mem_range.mp hi
  exact h (off + i) (by omega) (by omega)

/-- A window is the concatenation of its two parts. -/
theorem readAt_add : readAt m off (n + k) = readAt m off n ++ readAt m (off + n) k := by
  unfold readAt
  rw [List.range_add, List.map_append, List.map_map]
  refine congrArg _ (List.map_congr_left fun i _ => ?_)
  simp only [Function.comp_apply, Nat.add_assoc]

/-- A window reads back what was written to it. -/
theorem readAt_writeAt : readAt (writeAt m off bs) off bs.length = bs := by
  refine List.ext_getElem? ?_
  intro i
  rcases Nat.lt_or_ge i bs.length with hi | hi
  · rw [readAt_getElem? hi, writeAt, if_pos (Nat.le_add_right _ _), Nat.add_sub_cancel_left,
      List.getElem?_eq_getElem hi, Option.getD_some]
  · rw [List.getElem?_eq_none (by rwa [readAt_length]), List.getElem?_eq_none hi]

theorem writeAt_of_disjoint {i : Nat} (h : i < off ∨ off + bs.length ≤ i) :
    writeAt m off bs i = m i := by
  unfold writeAt
  split
  · rw [List.getElem?_eq_none (by omega), Option.getD_none]
  · rfl

/-- Writing beside a window leaves it alone. -/
theorem readAt_writeAt_of_disjoint {o : Nat} (h : off + n ≤ o ∨ o + bs.length ≤ off) :
    readAt (writeAt m o bs) off n = readAt m off n :=
  readAt_congr fun _ _ _ => writeAt_of_disjoint (by omega)

end Bytes
