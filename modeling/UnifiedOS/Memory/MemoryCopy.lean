import UnifiedOS.Foundation.ByteMemory
import UnifiedOS.Foundation.MachineInt

/-!
# `memcpy`

The byte loop of `Memory::memcpy`, with pointers that wrap at `2 ^ 64`.  Where
it copies downwards, or source and target lie apart, it is a `blit`.
-/

namespace UnifiedOS.Memory

open UnifiedOS.Foundation

def memcpy (m : ByteMemory) (dest src : Nat) : Nat → ByteMemory
  | 0 => m
  | size + 1 =>
      memcpy (m.poke (wrap64 dest) (m (wrap64 src))) (dest + 1) (src + 1) size

variable {m : ByteMemory} {dest src size x : Nat}

theorem memcpy_outside (h : ∀ k < size, wrap64 (dest + k) ≠ x) :
    memcpy m dest src size x = m x := by
  induction size generalizing m dest src with
  | zero => rfl
  | succ size ih =>
      have hfirst : wrap64 dest ≠ x := h 0 (by omega)
      have hrest : ∀ k < size, wrap64 (dest + 1 + k) ≠ x := by
        intro k hk
        have hnext := h (k + 1) (by omega)
        rw [Nat.add_right_comm]
        exact hnext
      rw [memcpy, ih hrest, ByteMemory.poke_other _ _ hfirst.symm]

/-- A copy downwards, or one from behind the target, reads no byte it has written. -/
theorem memcpy_eq_blit (hdest : dest + size ≤ 2 ^ 64) (hsrc : src + size ≤ 2 ^ 64)
    (h : dest ≤ src ∨ src + size ≤ dest) :
    memcpy m dest src size = m.blit dest size fun k => m (src + k) := by
  induction size generalizing m dest src with
  | zero =>
      funext x
      rw [ByteMemory.blit_outside _ (by omega)]
      rfl
  | succ size ih =>
      rw [memcpy, wrap64_of_lt (by omega), wrap64_of_lt (by omega),
        ih (by omega) (by omega) (by omega)]
      funext x
      by_cases hfirst : x = dest
      · rw [ByteMemory.blit_outside _ (by omega), hfirst, ByteMemory.poke_same,
          ByteMemory.blit, if_pos (by omega), Nat.sub_self, Nat.add_zero]
      · by_cases hrest : dest + 1 ≤ x ∧ x < dest + 1 + size
        · rw [ByteMemory.blit, if_pos hrest, ByteMemory.blit, if_pos (by omega),
            ByteMemory.poke_other _ _ (by omega)]
          congr 1
          omega
        · rw [ByteMemory.blit, if_neg hrest, ByteMemory.blit, if_neg (by omega),
            ByteMemory.poke_other _ _ hfirst]

theorem memcpy_apart (hdest : dest + size ≤ 2 ^ 64) (hsrc : src + size ≤ 2 ^ 64)
    (h : dest + size ≤ src ∨ src + size ≤ dest) :
    memcpy m dest src size = m.blit dest size fun k => m (src + k) :=
  memcpy_eq_blit hdest hsrc (h.imp_left (by omega))

end UnifiedOS.Memory
