import UnifiedOS.Foundation.ByteMemory
import Mathlib.Tactic.IntervalCases

/-!
# Programming the PIT

`SetFrequency` divides in 64 bits and hands the quotient to `SetDivistor`, whose
parameter has 16.  The lower bound is applied behind the truncation, so a
frequency whose divisor does not fit is not clamped but becomes another one.
-/

namespace UnifiedOS.Devices

open UnifiedOS.Foundation

def baseFrequency : Nat := 1193182

def pitDataPort0 : Nat := 0x40

def pitCommandPort : Nat := 0x43

/-- The driver, with the bytes it has written to the ports, the last one at the end. -/
structure PIT where
  divisor : BitVec 16
  written : List (Nat × Byte)
  deriving DecidableEq, Repr

namespace PIT

def initial : PIT := ⟨65535, []⟩

def write (pit : PIT) (port : Nat) (data : Byte) : PIT :=
  { pit with written := pit.written ++ [(port, data)] }

def setDivistor (pit : PIT) (divisor : BitVec 16) : PIT :=
  let divisor := if divisor < 100 then 100 else divisor
  let pit := { pit with divisor := divisor }
  let pit := pit.write pitCommandPort 0x36
  let pit := pit.write pitDataPort0 ((divisor &&& 0x00ff).setWidth 8)
  pit.write pitDataPort0 ((divisor >>> 8).setWidth 8)

def getFreqency (pit : PIT) : Nat := baseFrequency / pit.divisor.toNat

def setFrequency (pit : PIT) (frequency : BitVec 64) : PIT :=
  pit.setDivistor (BitVec.ofNat 16 (baseFrequency / frequency.toNat))

/-- The quotient, brought between 100 and the greatest divisor that there is. -/
def nearestDivisor (frequency : Nat) : Nat := max 100 (min 65535 (baseFrequency / frequency))

structure Programmed (divisor : Nat) (pit pit' : PIT) : Prop where
  stored : pit'.divisor.toNat = divisor
  sent : ∃ low high : Byte, low.toNat + 256 * high.toNat = divisor ∧ pit'.written =
    pit.written ++ [(pitCommandPort, 0x36), (pitDataPort0, low), (pitDataPort0, high)]
  frequency : pit'.getFreqency = baseFrequency / divisor

section Programming

variable {pit : PIT} {divisor : BitVec 16} {frequency : BitVec 64}

theorem divisor_setDivistor :
    (pit.setDivistor divisor).divisor.toNat = max 100 divisor.toNat := by
  change (if divisor < 100 then 100 else divisor).toNat = _
  split
  · rename_i hlow
    rw [BitVec.lt_def] at hlow
    exact (Nat.max_eq_left (Nat.le_of_lt hlow)).symm
  · rename_i hhigh
    rw [BitVec.lt_def] at hhigh
    exact (Nat.max_eq_right (Nat.le_of_not_lt hhigh)).symm

theorem bytes_of_divisor (divisor : BitVec 16) :
    ((divisor &&& 0x00ff).setWidth 8).toNat + 256 * ((divisor >>> 8).setWidth 8).toNat =
      divisor.toNat := by
  have hmask : (0x00ff : BitVec 16).toNat = 2 ^ 8 - 1 := rfl
  have hlt := divisor.isLt
  rw [BitVec.toNat_setWidth, BitVec.toNat_and, hmask, Nat.and_two_pow_sub_one_eq_mod,
    BitVec.toNat_setWidth, BitVec.toNat_ushiftRight, Nat.shiftRight_eq_div_pow]
  omega

theorem setDivistor_programmed (pit : PIT) (divisor : BitVec 16) :
    Programmed (max 100 divisor.toNat) pit (pit.setDivistor divisor) := by
  refine ⟨divisor_setDivistor, ?_, ?_⟩
  · refine ⟨((pit.setDivistor divisor).divisor &&& 0x00ff).setWidth 8,
      ((pit.setDivistor divisor).divisor >>> 8).setWidth 8, ?_, ?_⟩
    · rw [bytes_of_divisor, divisor_setDivistor]
    · simp [setDivistor, write]
  · rw [getFreqency, divisor_setDivistor]

theorem setFrequency_programmed (pit : PIT) (frequency : BitVec 64) :
    Programmed (max 100 (baseFrequency / frequency.toNat % 2 ^ 16)) pit
      (pit.setFrequency frequency) := by
  have h := setDivistor_programmed pit (BitVec.ofNat 16 (baseFrequency / frequency.toNat))
  rwa [BitVec.toNat_ofNat] at h

/-- The truncation gives the nearest divisor only where it does nothing. -/
theorem truncated_eq_nearest_iff {f : Nat} (hf : 1 ≤ f) :
    max 100 (baseFrequency / f % 2 ^ 16) = nearestDivisor f ↔ 19 ≤ f := by
  unfold nearestDivisor
  constructor
  · intro h
    by_contra hslow
    have hle : f ≤ 18 := by omega
    revert h
    interval_cases f <;> decide
  · intro hfast
    have hquotient : baseFrequency / f ≤ 62799 :=
      (Nat.div_le_div_left hfast (by decide)).trans (by decide)
    rw [Nat.mod_eq_of_lt (by omega), Nat.min_eq_right (by omega)]

/-- From 19 Hz on the nearest divisor is programmed; slower frequencies come out too fast. -/
theorem setFrequency_nearest_iff (pit : PIT) (frequency : BitVec 64)
    (hfrequency : 1 ≤ frequency.toNat) :
    Programmed (nearestDivisor frequency.toNat) pit (pit.setFrequency frequency) ↔
      19 ≤ frequency.toNat := by
  have hprogrammed := setFrequency_programmed pit frequency
  rw [← truncated_eq_nearest_iff hfrequency]
  constructor
  · intro h
    exact hprogrammed.stored.symm.trans h.stored
  · intro heq
    rwa [heq] at hprogrammed

theorem setFrequency_nearest_kernel :
    Programmed (nearestDivisor 1000) initial (initial.setFrequency 1000) :=
  (setFrequency_nearest_iff initial 1000 (by decide)).mpr (by decide)

/-- At 1 Hz the chip is given the divisor 13534, which makes 88 Hz. -/
theorem setFrequency_one_too_fast :
    ¬ Programmed (nearestDivisor 1) initial (initial.setFrequency 1) := by
  intro h
  exact absurd h.frequency (by decide)

end Programming

end PIT

end UnifiedOS.Devices
