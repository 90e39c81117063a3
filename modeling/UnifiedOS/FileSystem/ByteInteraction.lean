import UnifiedOS.Foundation.ByteMemory
import Mathlib.Tactic.IntervalCases

/-!
# Reading numbers from a buffer

`Byte::Get2Byte` and its siblings put the first byte highest;
`Endian::LittleEndian` turns the bytes of a number around.
-/

namespace UnifiedOS.FileSystem

open UnifiedOS.Foundation

def getByte (buffer : ByteMemory) (start : Nat) : Byte := buffer start

def get2Byte (buffer : ByteMemory) (start : Nat) : BitVec 16 :=
  (getByte buffer start).setWidth 16 <<< 8 ||| (getByte buffer (start + 1)).setWidth 16

def get4Byte (buffer : ByteMemory) (start : Nat) : BitVec 32 :=
  (get2Byte buffer start).setWidth 32 <<< 16 ||| (get2Byte buffer (start + 2)).setWidth 32

def get8Byte (buffer : ByteMemory) (start : Nat) : BitVec 64 :=
  (get4Byte buffer start).setWidth 64 <<< 32 &&& 0xFFFFFFFF00000000#64 |||
    (get4Byte buffer (start + 4)).setWidth 64 &&& 0x00000000FFFFFFFF#64

def bigEndian16 (littleEndian : BitVec 16) : BitVec 16 :=
  (littleEndian &&& 0x00FF#16) <<< 8 ||| (littleEndian &&& 0xFF00#16) >>> 8

/-- `Endian::LittleEndian` of a `uint16_t`, which is the same exchange. -/
def littleEndian16 (bigEndian : BitVec 16) : BitVec 16 := bigEndian16 bigEndian

def littleEndian32 (bigEndian : BitVec 32) : BitVec 32 :=
  (bigEndian &&& 0x000000FF#32) <<< 24 ||| (bigEndian &&& 0x0000FF00#32) <<< 8 |||
    (bigEndian &&& 0x00FF0000#32) >>> 8 ||| (bigEndian &&& 0xFF000000#32) >>> 24

/-- `Endian::BigEndian` of a `uint32_t`, which is the same exchange. -/
def bigEndian32 (littleEndian : BitVec 32) : BitVec 32 := littleEndian32 littleEndian

theorem get2Byte_eq (buffer : ByteMemory) (start : Nat) :
    get2Byte buffer start = buffer start ++ buffer (start + 1) := by
  apply BitVec.eq_of_getLsbD_eq
  intro i hi
  simp only [get2Byte, getByte, BitVec.getLsbD_or, BitVec.getLsbD_append]
  interval_cases i <;> simp

theorem get4Byte_eq (buffer : ByteMemory) (start : Nat) :
    get4Byte buffer start =
      buffer start ++ buffer (start + 1) ++ buffer (start + 2) ++ buffer (start + 3) := by
  apply BitVec.eq_of_getLsbD_eq
  intro i hi
  simp only [get4Byte, get2Byte_eq, BitVec.getLsbD_or, BitVec.getLsbD_shiftLeft,
    BitVec.getLsbD_setWidth, BitVec.getLsbD_append]
  interval_cases i <;> simp

theorem littleEndian16_append (a b : Byte) : littleEndian16 (a ++ b) = b ++ a := by
  apply BitVec.eq_of_getLsbD_eq
  intro i hi
  simp only [littleEndian16, bigEndian16, BitVec.getLsbD_or, BitVec.getLsbD_and,
    BitVec.getLsbD_shiftLeft, BitVec.getLsbD_ushiftRight, BitVec.getLsbD_append]
  interval_cases i <;> simp

theorem littleEndian32_append (a b c d : Byte) :
    littleEndian32 (a ++ b ++ c ++ d) = d ++ c ++ b ++ a := by
  apply BitVec.eq_of_getLsbD_eq
  intro i hi
  simp only [littleEndian32, BitVec.getLsbD_or, BitVec.getLsbD_and, BitVec.getLsbD_shiftLeft,
    BitVec.getLsbD_ushiftRight, BitVec.getLsbD_append]
  interval_cases i <;> simp

theorem toNat_append_byte {w : Nat} (x : BitVec w) (b : Byte) :
    (x ++ b).toNat = x.toNat * 256 + b.toNat := by
  rw [BitVec.toNat_append, ← Nat.shiftLeft_add_eq_or_of_lt b.isLt, Nat.shiftLeft_eq]

theorem littleEndian_get4Byte (buffer : ByteMemory) (start : Nat) :
    (littleEndian32 (get4Byte buffer start)).toNat = buffer.load start 4 := by
  rw [get4Byte_eq, littleEndian32_append, toNat_append_byte, toNat_append_byte,
    toNat_append_byte]
  simp only [ByteMemory.load]
  ring

end UnifiedOS.FileSystem
