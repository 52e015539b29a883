import LockFreeRingBuf.RingQueue
import LockFreeRingBuf.Lib.Bytes

/-!
# `SinkBuffer` and the record

`data_` is a function of the offset, so that a store outside the array is
visible as a store at an offset of `SIZE` or more; `cur_` is kept as its
distance from `data_`, and `end_` is `data_ + SIZE`. The cookie and the
recorded cycles play no part.
-/

namespace LockFreeRingBuf

open Bytes

/-- `UncompressedEntry<ArgBytes>`, less `dyMem`, which nothing reads. -/
structure UncompressedEntry (ArgBytes : Nat) where
  fmtId : BitVec 32
  entrySize : BitVec 32
  timestamp : BitVec 64
  argData : Vector Byte ArgBytes

/-- The bytes of one record in the log. -/
def UncompressedEntry.encode {n : Nat} (e : UncompressedEntry n) : List Byte :=
  littleEndian 4 e.fmtId ++ littleEndian 8 e.timestamp ++ e.argData.toList

@[simp] theorem UncompressedEntry.encode_length {n : Nat} (e : UncompressedEntry n) :
    e.encode.length = 12 + n := by
  simp only [encode, List.length_append, littleEndian_length, Vector.length_toList]

structure SinkBuffer where
  data_ : Nat → Byte
  cur_ : Nat

namespace SinkBuffer

/-- The constructor leaves `data_` as it finds it. -/
def construct (data_ : Nat → Byte) : SinkBuffer := ⟨data_, 0⟩

/-- A store of `bs` at offset `off` of `data_`, as through a `char*`. -/
def store (b : SinkBuffer) (off : Nat) (bs : List Byte) : SinkBuffer :=
  { b with data_ := writeAt b.data_ off bs }

def append (b : SinkBuffer) (buf : List Byte) : SinkBuffer :=
  { b.store b.cur_ buf with cur_ := b.cur_ + buf.length }

def length (b : SinkBuffer) : CInt := BitVec.ofInt 32 b.cur_

def current (b : SinkBuffer) : Nat := b.cur_

def avail (SIZE : Nat) (b : SinkBuffer) : CInt := BitVec.ofInt 32 ((SIZE : Int) - b.cur_)

def add (b : SinkBuffer) (len : Nat) : SinkBuffer := { b with cur_ := b.cur_ + len }

/-- The store of the terminating zero at `cur_`. -/
def debugString (b : SinkBuffer) : SinkBuffer := b.store b.cur_ [0]

def reset (b : SinkBuffer) : SinkBuffer := { b with cur_ := 0 }

/-- The `length()` bytes from `data()` on. -/
def contents (b : SinkBuffer) : List Byte := readAt b.data_ 0 b.length.toInt.toNat

/-- `cur_` is inside the array: `data_ <= cur_ < end_`. -/
def Fits (SIZE : Nat) (b : SinkBuffer) : Prop := b.cur_ < SIZE

variable {SIZE : Nat} {b : SinkBuffer}

theorem length_toInt (hSIZE : SIZE < 2 ^ 31) (h : b.Fits SIZE) : b.length.toInt = b.cur_ := by
  have hlt : b.cur_ < SIZE := h
  rw [length, BitVec.toInt_ofInt_eq_self] <;> omega

theorem avail_toInt (hSIZE : SIZE < 2 ^ 31) (h : b.Fits SIZE) :
    (b.avail SIZE).toInt = SIZE - b.cur_ := by
  have hlt : b.cur_ < SIZE := h
  rw [avail, BitVec.toInt_ofInt_eq_self] <;> omega

/-- The cast of `avail()` to `unsigned` is the room that is left. -/
theorem avail_toNat (hSIZE : SIZE < 2 ^ 31) (h : b.Fits SIZE) :
    (b.avail SIZE).toNat = SIZE - b.cur_ := by
  have hint := avail_toInt hSIZE h
  have hlt : b.cur_ < SIZE := h
  have hbits := (b.avail SIZE).isLt
  rw [BitVec.toInt_eq_toNat_cond] at hint
  split at hint <;> omega

/-- What fits an empty buffer is refused only by one that is not empty. -/
theorem cur_pos_of_full (hSIZE : SIZE < 2 ^ 31) (h : b.Fits SIZE) {entrySize : BitVec 32}
    (hsize : entrySize.toNat < SIZE) (hfull : ¬ entrySize < b.avail SIZE) : 0 < b.cur_ := by
  rw [BitVec.lt_def, avail_toNat hSIZE h] at hfull
  omega

theorem contents_eq (hSIZE : SIZE < 2 ^ 31) (h : b.Fits SIZE) :
    b.contents = readAt b.data_ 0 b.cur_ := by
  rw [contents, length_toInt hSIZE h, Int.toNat_natCast]

end SinkBuffer

end LockFreeRingBuf
