import UnifiedOS.Foundation.LastWrite
import UnifiedOS.SMP.InterruptEntry

/-!
# The interrupt descriptor table

The constructor of `InterruptManager` fills the table with `InterruptIgnore` and
then sets the gates of the exceptions, of the system calls, of the scheduler and
of the hardware interrupts.  The processor takes a gate apart by the positions of
its bits.
-/

namespace UnifiedOS.Interrupts

open UnifiedOS.Foundation

/-! ## Gates -/

structure GateDescriptor where
  baseLow : BitVec 16
  selector : BitVec 16
  ist : BitVec 8
  flags : BitVec 8
  baseMed : BitVec 16
  baseHigh : BitVec 32
  null : BitVec 32

/-- What `SetInterruptDescriptorTableEntry` stores. -/
def gateDescriptor (handler : BitVec 64) (selector : BitVec 16) (flags ist : BitVec 8) :
    GateDescriptor where
  baseHigh := (handler >>> 32).setWidth 32
  baseMed := ((handler >>> 16) &&& 0xFFFF).setWidth 16
  baseLow := (handler &&& 0xFFFF).setWidth 16
  flags := flags
  selector := selector
  null := 0
  ist := ist &&& 0x7

def GateDescriptor.bits (gate : GateDescriptor) : BitVec 128 :=
  gate.null ++ gate.baseHigh ++ gate.baseMed ++ gate.flags ++ gate.ist ++ gate.selector ++
    gate.baseLow

structure Gate where
  offset : BitVec 64
  selector : BitVec 16
  ist : BitVec 3
  type : BitVec 4
  dpl : BitVec 2
  present : Bool
  deriving DecidableEq

def Gate.ofBits (bits : BitVec 128) : Gate where
  offset := bits.extractLsb' 64 32 ++ bits.extractLsb' 48 16 ++ bits.extractLsb' 0 16
  selector := bits.extractLsb' 16 16
  ist := bits.extractLsb' 32 3
  type := bits.extractLsb' 40 4
  dpl := bits.extractLsb' 45 2
  present := bits.getLsbD 47

theorem setWidth_mask (handler : BitVec 64) :
    (handler &&& 0xFFFF).setWidth 16 = handler.setWidth 16 := by
  apply BitVec.eq_of_toNat_eq
  have hmask : (0xFFFF : BitVec 64).toNat = 2 ^ 16 - 1 := rfl
  rw [BitVec.toNat_setWidth, BitVec.toNat_setWidth, BitVec.toNat_and, hmask,
    Nat.and_two_pow_sub_one_eq_mod, Nat.mod_mod]

theorem join_base (handler : BitVec 64) :
    (handler >>> 32).setWidth 32 ++ (handler >>> 16).setWidth 16 ++ handler.setWidth 16 =
      handler := by
  ext i hi
  simp
  grind

section Bits

variable (gate : GateDescriptor)

theorem bits_baseLow : gate.bits.extractLsb' 0 16 = gate.baseLow := by
  unfold GateDescriptor.bits
  ext i hi
  simp
  grind

theorem bits_selector : gate.bits.extractLsb' 16 16 = gate.selector := by
  unfold GateDescriptor.bits
  ext i hi
  simp
  grind

theorem bits_ist : gate.bits.extractLsb' 32 3 = gate.ist.setWidth 3 := by
  unfold GateDescriptor.bits
  ext i hi
  simp
  grind

theorem bits_type : gate.bits.extractLsb' 40 4 = gate.flags.setWidth 4 := by
  unfold GateDescriptor.bits
  ext i hi
  simp
  grind

theorem bits_dpl : gate.bits.extractLsb' 45 2 = gate.flags.extractLsb' 5 2 := by
  unfold GateDescriptor.bits
  ext i hi
  simp
  grind

theorem bits_present : gate.bits.getLsbD 47 = gate.flags.getLsbD 7 := by
  unfold GateDescriptor.bits
  simp
  grind

theorem bits_baseMed : gate.bits.extractLsb' 48 16 = gate.baseMed := by
  unfold GateDescriptor.bits
  ext i hi
  simp
  grind

theorem bits_baseHigh : gate.bits.extractLsb' 64 32 = gate.baseHigh := by
  unfold GateDescriptor.bits
  ext i hi
  simp
  grind

end Bits

/-- The three parts of the address come together again in the processor. -/
theorem ofBits_gateDescriptor (handler : BitVec 64) (selector : BitVec 16) (flags ist : BitVec 8) :
    Gate.ofBits (gateDescriptor handler selector flags ist).bits =
      ⟨handler, selector, ist.setWidth 3, flags.setWidth 4, flags.extractLsb' 5 2,
        flags.getLsbD 7⟩ := by
  have hist : (ist &&& 0x7).setWidth 3 = ist.setWidth 3 := by
    revert ist
    decide
  rw [Gate.ofBits, bits_baseLow, bits_selector, bits_ist, bits_type, bits_dpl, bits_present,
    bits_baseMed, bits_baseHigh, gateDescriptor]
  dsimp only
  rw [setWidth_mask, setWidth_mask, join_base, hist]

/-! ## The constructor -/

inductive Stub where
  | interruptIgnore
  | handleException (number : Byte)
  | handleInterruptRequest (number : Byte)
  deriving DecidableEq, Repr

/-- What a stub stores in `interruptnumber`; `InterruptIgnore` only returns. -/
def Stub.stores : Stub → Option Byte
  | interruptIgnore => none
  | handleException number => some (SMP.handleException number)
  | handleInterruptRequest number =>
      if number = 253 then some (SMP.handleSchedulerInterruptRequest number)
      else if number = 128 then some (SMP.handleSyscallInterruptRequest number)
      else some (SMP.handleInterruptRequest number)

def hardwareInterruptOffset : BitVec 16 := 0x20

def IDT_INTERRUPT_GATE : BitVec 8 := 0x8E

/-- The loop that runs from 255 down to 1, and the entry after it. -/
def ignoredVectors : List Byte := (List.range 256).map fun i => BitVec.ofNat 8 (255 - i)

def exceptionVectors : List Byte := (List.range 20).map (BitVec.ofNat 8)

def hardwareVectors : List Byte :=
  (List.range 16).map fun i => (hardwareInterruptOffset + BitVec.ofNat 16 i).setWidth 8

/-- The stub and the stack of each entry that the constructor sets, in its order. -/
def constructorEntries : List (Byte × Stub × Byte) :=
  (ignoredVectors.map fun vector => (vector, .interruptIgnore, 0)) ++
  (exceptionVectors.map fun vector =>
    (vector, .handleException vector, if vector = 0x09 then 2 else 0)) ++
  [(0x80, .handleInterruptRequest 128, 0), (0xFD, .handleInterruptRequest 253, 0)] ++
  (hardwareVectors.map fun vector => (vector, .handleInterruptRequest (vector - 0x20), 0))

def interruptDescriptorTable (address : Stub → BitVec 64) : Byte → GateDescriptor :=
  writeAll (fun _ => ⟨0, 0, 0, 0, 0, 0, 0⟩) <| constructorEntries.map fun entry =>
    (entry.1, gateDescriptor (address entry.2.1) 0x08 IDT_INTERRUPT_GATE entry.2.2)

def idtLimit : BitVec 16 := 256 * 16 - 1

/-! ## What every vector leads to -/

def Served (vector : Byte) : Prop :=
  vector.toNat < 20 ∨ (0x20 ≤ vector.toNat ∧ vector.toNat < 0x30) ∨ vector = 0x80 ∨ vector = 0xFD

instance (vector : Byte) : Decidable (Served vector) :=
  inferInstanceAs (Decidable (_ ∨ _))

def stubAt (vector : Byte) : Stub :=
  if 0x20 ≤ vector.toNat ∧ vector.toNat < 0x30 then .handleInterruptRequest (vector - 0x20)
  else if vector = 0x80 ∨ vector = 0xFD then .handleInterruptRequest vector
  else if vector.toNat < 20 then .handleException vector
  else .interruptIgnore

def istAt (vector : Byte) : Byte := if vector = 0x09 then 2 else 0

theorem mem_ignoredVectors (vector : Byte) : vector ∈ ignoredVectors := by
  have hlt := vector.isLt
  refine List.mem_map.mpr ⟨255 - vector.toNat, List.mem_range.mpr (by omega), ?_⟩
  rw [show 255 - (255 - vector.toNat) = vector.toNat by omega, BitVec.ofNat_toNat,
    BitVec.setWidth_eq]

theorem mem_exceptionVectors (vector : Byte) :
    vector ∈ exceptionVectors ↔ vector.toNat < 20 := by
  revert vector
  decide

theorem mem_hardwareVectors (vector : Byte) :
    vector ∈ hardwareVectors ↔ 0x20 ≤ vector.toNat ∧ vector.toNat < 0x30 := by
  revert vector
  decide

theorem lastWrite_constructorEntries (vector : Byte) :
    lastWrite vector constructorEntries = some (stubAt vector, istAt vector) := by
  have hignored : lastWrite vector (ignoredVectors.map fun vector =>
      (vector, (Stub.interruptIgnore, (0 : Byte)))) = some (Stub.interruptIgnore, 0) := by
    rw [lastWrite_map fun _ => (Stub.interruptIgnore, (0 : Byte)),
      if_pos (mem_ignoredVectors vector)]
  have hsingle : lastWrite vector [((0x80 : Byte), Stub.handleInterruptRequest 128, (0 : Byte)),
      (0xFD, Stub.handleInterruptRequest 253, 0)] =
        if vector = 0x80 ∨ vector = 0xFD then some (Stub.handleInterruptRequest vector, 0)
        else none := by
    by_cases hsyscall : vector = 0x80
    · subst hsyscall
      rfl
    · by_cases hscheduler : vector = 0xFD
      · subst hscheduler
        rfl
      · rw [if_neg (not_or.mpr ⟨hsyscall, hscheduler⟩), lastWrite_eq_none_iff,
          List.forall_mem_cons, List.forall_mem_singleton]
        exact ⟨Ne.symm hsyscall, Ne.symm hscheduler⟩
  rw [constructorEntries, lastWrite_append, lastWrite_append, lastWrite_append, hignored, hsingle,
    lastWrite_map fun vector => (Stub.handleInterruptRequest (vector - 0x20), (0 : Byte)),
    lastWrite_map fun vector =>
      (Stub.handleException vector, if vector = 0x09 then (2 : Byte) else 0)]
  simp only [mem_hardwareVectors, mem_exceptionVectors, stubAt, istAt]
  by_cases hhardware : 0x20 ≤ vector.toNat ∧ vector.toNat < 0x30
  · have hist : vector ≠ 0x09 := by
      rintro rfl
      exact absurd hhardware (by decide)
    rw [if_pos hhardware, if_pos hhardware, Option.some_or, if_neg hist]
  · rw [if_neg hhardware, if_neg hhardware, Option.none_or]
    by_cases hsoftware : vector = 0x80 ∨ vector = 0xFD
    · have hist : vector ≠ 0x09 := by
        rintro rfl
        exact absurd hsoftware (by decide)
      rw [if_pos hsoftware, if_pos hsoftware, Option.some_or, if_neg hist]
    · rw [if_neg hsoftware, if_neg hsoftware, Option.none_or]
      by_cases hexception : vector.toNat < 20
      · rw [if_pos hexception, if_pos hexception, Option.some_or]
      · have hist : vector ≠ 0x09 := by
          rintro rfl
          exact absurd hexception (by decide)
        rw [if_neg hexception, if_neg hexception, Option.none_or, if_neg hist]

theorem stores_stubAt (vector : Byte) :
    (stubAt vector).stores = if Served vector then some vector else none := by
  revert vector
  decide

/--
Behind every vector the processor finds, within the limit of the table, a present
interrupt gate of the kernel to one stub.  That stub stores this very vector, or
it is `InterruptIgnore`, and then the vector has no stub of its own.
-/
theorem gate_of_every_vector (address : Stub → BitVec 64) (vector : Byte) :
    16 * vector.toNat + 16 ≤ idtLimit.toNat + 1 ∧
      Gate.ofBits (interruptDescriptorTable address vector).bits =
        ⟨address (stubAt vector), 0x08, (istAt vector).setWidth 3, 0xE, 0, true⟩ ∧
      (stubAt vector).stores = if Served vector then some vector else none := by
  refine ⟨?_, ?_, stores_stubAt vector⟩
  · have hlt := vector.isLt
    have hlimit : idtLimit.toNat = 4095 := rfl
    omega
  · have hlast := lastWrite_constructorEntries vector
    rw [interruptDescriptorTable, writeAll_apply, lastWrite_map_value fun entry : Stub × Byte =>
      gateDescriptor (address entry.1) 0x08 IDT_INTERRUPT_GATE entry.2, hlast, Option.map_some,
      Option.getD_some, ofBits_gateDescriptor]
    rfl

end UnifiedOS.Interrupts
