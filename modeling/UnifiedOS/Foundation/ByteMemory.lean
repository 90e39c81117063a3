import Mathlib.Data.Nat.ModEq
import Mathlib.Tactic.Linarith
import Mathlib.Tactic.Ring

/-!
# Byte-addressed memory

A memory is a total map from byte addresses to bytes.  Numbers are stored
little-endian.  The two facts every client uses are that a store is read back,
and that a store leaves every byte outside its range alone.
-/

namespace UnifiedOS.Foundation

abbrev Byte := BitVec 8

abbrev ByteMemory := Nat → Byte

namespace ByteMemory

def load (m : ByteMemory) (addr : Nat) : Nat → Nat
  | 0 => 0
  | n + 1 => (m addr).toNat + 256 * load m (addr + 1) n

def store (m : ByteMemory) (addr n value : Nat) : ByteMemory := fun x =>
  if addr ≤ x ∧ x < addr + n then BitVec.ofNat 8 (value / 256 ^ (x - addr))
  else m x

def fill (m : ByteMemory) (addr n : Nat) (byte : Byte) : ByteMemory := fun x =>
  if addr ≤ x ∧ x < addr + n then byte else m x

def blit (m : ByteMemory) (addr n : Nat) (source : Nat → Byte) : ByteMemory :=
  fun x => if addr ≤ x ∧ x < addr + n then source (x - addr) else m x

def poke (m : ByteMemory) (addr : Nat) (byte : Byte) : ByteMemory := fun x =>
  if x = addr then byte else m x

@[simp] theorem poke_same (m : ByteMemory) (addr : Nat) (byte : Byte) :
    m.poke addr byte addr = byte := if_pos rfl

theorem poke_other (m : ByteMemory) {addr x : Nat} (byte : Byte) (h : x ≠ addr) :
    m.poke addr byte x = m x := if_neg h

theorem store_outside (m : ByteMemory) {addr n value x : Nat}
    (h : x < addr ∨ addr + n ≤ x) : m.store addr n value x = m x := by
  rw [store, if_neg]
  omega

theorem fill_outside (m : ByteMemory) {addr n x : Nat} {byte : Byte}
    (h : x < addr ∨ addr + n ≤ x) : m.fill addr n byte x = m x := by
  rw [fill, if_neg]
  omega

theorem blit_outside (m : ByteMemory) {addr n x : Nat} {source : Nat → Byte}
    (h : x < addr ∨ addr + n ≤ x) : m.blit addr n source x = m x := by
  rw [blit, if_neg]
  omega

theorem blit_inside (m : ByteMemory) {addr n k : Nat} {source : Nat → Byte}
    (h : k < n) : m.blit addr n source (addr + k) = source k := by
  rw [blit, if_pos (by omega), Nat.add_sub_cancel_left]

theorem load_eq_load {m m' : ByteMemory} {addr addr' n : Nat}
    (h : ∀ k < n, m (addr + k) = m' (addr' + k)) : m.load addr n = m'.load addr' n := by
  induction n generalizing addr addr' with
  | zero => rfl
  | succ n ih =>
      have hfirst : m addr = m' addr' := h 0 (by omega)
      have hrest : ∀ k < n, m (addr + 1 + k) = m' (addr' + 1 + k) := by
        intro k hk
        rw [Nat.add_right_comm, Nat.add_right_comm addr']
        exact h (k + 1) (by omega)
      rw [load, load, hfirst, ih hrest]

theorem load_congr {m m' : ByteMemory} {addr n : Nat}
    (h : ∀ x, addr ≤ x → x < addr + n → m x = m' x) :
    m.load addr n = m'.load addr n :=
  load_eq_load fun k hk => h _ (by omega) (by omega)

theorem load_lt (m : ByteMemory) (addr n : Nat) :
    m.load addr n < 256 ^ n := by
  induction n generalizing addr with
  | zero => simp [load]
  | succ n ih =>
      have hbyte : (m addr).toNat < 256 := (m addr).isLt
      have htail := ih (addr + 1)
      rw [load, pow_succ]
      omega

theorem load_word_lt (m : ByteMemory) (addr : Nat) : m.load addr 8 < 2 ^ 64 := by
  have hlt := m.load_lt addr 8
  norm_num at hlt ⊢
  exact hlt

theorem load_store_disjoint (m : ByteMemory) {addr addr' n n' value : Nat}
    (h : addr + n ≤ addr' ∨ addr' + n' ≤ addr) :
    (m.store addr n value).load addr' n' = m.load addr' n' :=
  load_congr fun x hlo hhi => m.store_outside (by omega)

private theorem load_digits (m : ByteMemory) {addr n value : Nat}
    (h : ∀ k < n, m (addr + k) = BitVec.ofNat 8 (value / 256 ^ k)) :
    m.load addr n = value % 256 ^ n := by
  induction n generalizing addr value with
  | zero => simp [load, Nat.mod_one]
  | succ n ih =>
      have htail : m.load (addr + 1) n = value / 256 % 256 ^ n := by
        apply ih
        intro k hk
        rw [Nat.add_assoc, Nat.add_comm 1 k, h (k + 1) (by omega), pow_succ',
          Nat.div_div_eq_div_mul]
      have hhead : (m addr).toNat = value % 256 := by
        have h0 := h 0 (by omega)
        simp only [Nat.add_zero, pow_zero, Nat.div_one] at h0
        rw [h0, BitVec.toNat_ofNat]
      rw [load, htail, hhead, pow_succ', Nat.mod_mul]

theorem load_store_same (m : ByteMemory) (addr n value : Nat) :
    (m.store addr n value).load addr n = value % 256 ^ n := by
  apply load_digits
  intro k hk
  rw [store, if_pos (by omega), Nat.add_sub_cancel_left]

theorem load_fill_zero (m : ByteMemory) {addr n addr' n' : Nat}
    (hlo : addr ≤ addr') (hhi : addr' + n' ≤ addr + n) :
    (m.fill addr n 0).load addr' n' = 0 := by
  have hdigits : (m.fill addr n 0).load addr' n' = 0 % 256 ^ n' := by
    apply load_digits
    intro k hk
    rw [fill, if_pos (by omega), Nat.zero_div]
    rfl
  rw [hdigits, Nat.zero_mod]

theorem load_fill_disjoint (m : ByteMemory) {addr n addr' n' : Nat}
    {byte : Byte} (h : addr + n ≤ addr' ∨ addr' + n' ≤ addr) :
    (m.fill addr n byte).load addr' n' = m.load addr' n' :=
  load_congr fun x hlo hhi => m.fill_outside (by omega)

end ByteMemory

end UnifiedOS.Foundation
