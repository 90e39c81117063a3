import UnifiedOS.Foundation.ByteMemory
import UnifiedOS.Foundation.MachineInt

/-!
# The page bitmap

`Bitmap::Get` and `Bitmap::Set` over byte memory.  Bit `index` is the bit
`0b10000000 >> index % 8` of byte `index / 8` of the buffer.  Both functions
let the index `Size * 8` pass, one bit past the end of the buffer.
`operator[]` has lost its `return`; it is read as returning what `Get` does.
-/

namespace UnifiedOS.Paging

open UnifiedOS.Foundation

structure Bitmap where
  size : Nat
  buffer : Nat
  deriving DecidableEq, Repr

namespace Bitmap

def bitIndexer (index : Nat) : Byte := 0b10000000#8 >>> (index % 8)

def get (b : Bitmap) (m : ByteMemory) (index : Nat) : Bool :=
  if index > wrap64 (b.size * 8) then false
  else (m (b.buffer + index / 8) &&& bitIndexer index) != 0#8

def set (b : Bitmap) (m : ByteMemory) (index : Nat) (value : Bool) :
    Bool × ByteMemory :=
  if index > wrap64 (b.size * 8) then (false, m)
  else
    let byteIndex := b.buffer + index / 8
    let m := m.poke byteIndex (m byteIndex &&& ~~~ bitIndexer index)
    (true, if value then m.poke byteIndex (m byteIndex ||| bitIndexer index) else m)

/-- The bit `index`, counted from the highest one of the first byte. -/
def bit (b : Bitmap) (m : ByteMemory) (index : Nat) : Bool :=
  (m (b.buffer + index / 8)).getLsbD (7 - index % 8)

/-! ## One byte -/

theorem getLsbD_bitIndexer (index i : Nat) :
    (bitIndexer index).getLsbD i = decide (index % 8 + i = 7) := by
  have hpow : 0b10000000#8 = BitVec.twoPow 8 7 := by decide
  rw [bitIndexer, hpow, BitVec.getLsbD_ushiftRight, BitVec.getLsbD_twoPow]
  simp [eq_comm]

theorem and_bitIndexer (byte : Byte) (index : Nat) :
    ((byte &&& bitIndexer index) != 0#8) = byte.getLsbD (7 - index % 8) := by
  have hbit : ∀ i, (byte &&& bitIndexer index).getLsbD i =
      (byte.getLsbD i && decide (index % 8 + i = 7)) := by
    intro i
    rw [BitVec.getLsbD_and, getLsbD_bitIndexer]
  have hindex : index % 8 < 8 := Nat.mod_lt index (by decide)
  cases hset : byte.getLsbD (7 - index % 8) with
  | true =>
      rw [bne_iff_ne]
      intro hzero
      have hpicked := hbit (7 - index % 8)
      rw [hzero, hset] at hpicked
      simp at hpicked
      omega
  | false =>
      rw [bne_eq_false_iff_eq]
      apply BitVec.eq_of_getLsbD_eq
      intro i hi
      rw [hbit, BitVec.getLsbD_zero]
      by_cases hpick : index % 8 + i = 7
      · have hi' : i = 7 - index % 8 := by omega
        rw [hi', hset, Bool.false_and]
      · simp [hpick]

theorem getLsbD_cleared (byte : Byte) {index i : Nat} (hi : i < 8) :
    (byte &&& ~~~ bitIndexer index).getLsbD i =
      (byte.getLsbD i && !decide (index % 8 + i = 7)) := by
  rw [BitVec.getLsbD_and, BitVec.getLsbD_not, getLsbD_bitIndexer]
  simp [hi]

theorem getLsbD_raised (byte : Byte) (index i : Nat) :
    (byte ||| bitIndexer index).getLsbD i =
      (byte.getLsbD i || decide (index % 8 + i = 7)) := by
  rw [BitVec.getLsbD_or, getLsbD_bitIndexer]

/-! ## The law of `Get` and `Set` -/

section Laws

variable {b : Bitmap} {m : ByteMemory} {index i j : Nat} {value : Bool}

theorem get_of_le (h : index ≤ wrap64 (b.size * 8)) : b.get m index = b.bit m index := by
  rw [get, if_neg (by omega), and_bitIndexer, bit]

theorem get_of_gt (h : wrap64 (b.size * 8) < index) : b.get m index = false :=
  if_pos h

theorem set_of_gt (h : wrap64 (b.size * 8) < index) :
    b.set m index value = (false, m) :=
  if_pos h

theorem set_fst_of_le (h : index ≤ wrap64 (b.size * 8)) : (b.set m index value).1 = true := by
  rw [set, if_neg (by omega)]

theorem set_snd_apply (h : index ≤ wrap64 (b.size * 8)) (x : Nat) :
    (b.set m index value).2 x =
      if x = b.buffer + index / 8 then
        (if value then (m x &&& ~~~ bitIndexer index) ||| bitIndexer index
          else m x &&& ~~~ bitIndexer index)
      else m x := by
  unfold set
  rw [if_neg (by omega)]
  by_cases hx : x = b.buffer + index / 8
  · cases value <;> simp [hx]
  · cases value <;> simp [hx, ByteMemory.poke_other]

theorem bit_set (h : i ≤ wrap64 (b.size * 8)) :
    b.bit (b.set m i value).2 j = if j = i then value else b.bit m j := by
  have hiBit : i % 8 < 8 := Nat.mod_lt i (by decide)
  have hjBit : j % 8 < 8 := Nat.mod_lt j (by decide)
  unfold bit
  rw [set_snd_apply h]
  by_cases hbyte : b.buffer + j / 8 = b.buffer + i / 8
  · have hpick : (i % 8 + (7 - j % 8) = 7) ↔ j = i := by omega
    rw [if_pos hbyte]
    cases value with
    | true =>
        rw [if_pos rfl, getLsbD_raised, getLsbD_cleared _ (by omega)]
        simp only [hpick]
        by_cases hsame : j = i <;> simp [hsame]
    | false =>
        rw [if_neg (by decide), getLsbD_cleared _ (by omega)]
        simp only [hpick]
        by_cases hsame : j = i <;> simp [hsame]
  · rw [if_neg hbyte, if_neg]
    rintro rfl
    exact hbyte rfl

theorem get_set :
    b.get (b.set m i value).2 j =
      if j = i ∧ i ≤ wrap64 (b.size * 8) then value else b.get m j := by
  by_cases hi : i ≤ wrap64 (b.size * 8)
  · by_cases hj : j ≤ wrap64 (b.size * 8)
    · rw [get_of_le hj, get_of_le hj, bit_set hi]
      simp [hi]
    · rw [get_of_gt (by omega), get_of_gt (by omega), if_neg]
      rintro ⟨rfl, -⟩
      exact hj hi
  · rw [set_of_gt (by omega), if_neg]
    exact fun h => hi h.2

end Laws

end Bitmap

end UnifiedOS.Paging
