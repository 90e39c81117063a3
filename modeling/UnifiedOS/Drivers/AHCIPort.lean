import Mathlib.Data.Nat.Notation
import Mathlib.Tactic.NormNum

/-!
# Commands to an AHCI port

`ReadDiskBlock` and `WriteDiskBlock` fill the first command slot and wait for
the port.  They differ in one bit of the header and in the ATA command, and are
`diskBlock` applied to these.  What the registers show at each poll is given.
-/

namespace UnifiedOS.Drivers.AHCI

def ATA_DEV_BUSY : BitVec 32 := 0x80
def ATA_DEV_DRQ : BitVec 32 := 0x08
def HBA_PxIS_TFES : BitVec 32 := 1 <<< 30
def ATA_CMD_READ_DMA_EX : BitVec 8 := 0x25
def ATA_CMD_WRITE_DMA_EX : BitVec 8 := 0x35
def FIS_TYPE_REG_H2D : BitVec 8 := 0x27

/-- The fields of `FIS_REG_H2D` that are set; the others are cleared with the table. -/
structure FISRegH2D where
  fisType : BitVec 8
  commandControl : BitVec 1
  command : BitVec 8
  lba0 : BitVec 8
  lba1 : BitVec 8
  lba2 : BitVec 8
  deviceRegister : BitVec 8
  lba3 : BitVec 8
  lba4 : BitVec 8
  lba5 : BitVec 8
  countLow : BitVec 8
  countHigh : BitVec 8
  deriving DecidableEq, Repr

structure HBAPRDTEntry where
  dataBaseAddress : BitVec 32
  dataBaseAddressUpper : BitVec 32
  byteCount : BitVec 22
  interruptOnCompletion : BitVec 1
  deriving DecidableEq, Repr

structure HBACommand where
  commandFISLength : BitVec 5
  write : BitVec 1
  prdtLength : BitVec 16
  prdtEntry : HBAPRDTEntry
  commandFIS : FISRegH2D
  deriving DecidableEq, Repr

structure PortRegisters where
  taskFileData : Nat → BitVec 32
  commandIssue : Nat → BitVec 32
  interruptStatus : Nat → BitVec 32

def buildCommand (write : BitVec 1) (command : BitVec 8) (lba count buffer : BitVec 64) :
    HBACommand :=
  let sectorL := lba.setWidth 32
  let sectorH := (lba >>> 32).setWidth 32
  { commandFISLength := 5
    write := write
    prdtLength := 1
    prdtEntry :=
      { dataBaseAddress := buffer.setWidth 32
        dataBaseAddressUpper := (buffer >>> 32).setWidth 32
        byteCount := ((count <<< 9) - 1).setWidth 22
        interruptOnCompletion := 1 }
    commandFIS :=
      { fisType := FIS_TYPE_REG_H2D
        commandControl := 1
        command := command
        lba0 := sectorL.setWidth 8
        lba1 := (sectorL >>> 8).setWidth 8
        lba2 := (sectorL >>> 16).setWidth 8
        deviceRegister := 1 <<< 6
        -- the byte above `lba2` is taken from the high half
        lba3 := sectorH.setWidth 8
        lba4 := (sectorH >>> 8).setWidth 8
        lba5 := (sectorH >>> 16).setWidth 8
        countLow := (count &&& 0xFF).setWidth 8
        countHigh := ((count >>> 8) &&& 0xFF).setWidth 8 } }

/-- `while (busy && spin < 1000000) spin++`, with at most `fuel` polls left. -/
def spinWhileBusy (registers : PortRegisters) : Nat → Nat → Nat
  | 0, spin => spin
  | fuel + 1, spin =>
      if registers.taskFileData spin &&& (ATA_DEV_BUSY ||| ATA_DEV_DRQ) ≠ 0 then
        spinWhileBusy registers fuel (spin + 1)
      else spin

def waitForCompletion (registers : PortRegisters) : Nat → Nat → Option Bool
  | 0, _ => none
  | fuel + 1, poll =>
      if registers.commandIssue poll = 0 then some true
      else if registers.interruptStatus poll &&& HBA_PxIS_TFES ≠ 0 then some false
      else waitForCompletion registers fuel (poll + 1)

/-- The slot, whether it was issued, and the result if there is one within `fuel` polls. -/
def diskBlock (write : BitVec 1) (command : BitVec 8) (registers : PortRegisters) (fuel : Nat)
    (lba count buffer : BitVec 64) : HBACommand × Bool × Option Bool :=
  let slot := buildCommand write command lba count buffer
  let spin := spinWhileBusy registers 1000000 0
  if spin = 1000000 then (slot, false, some false)
  else (slot, true, waitForCompletion registers fuel 0)

def readDiskBlock : PortRegisters → Nat → BitVec 64 → BitVec 64 → BitVec 64 →
    HBACommand × Bool × Option Bool :=
  diskBlock 0 ATA_CMD_READ_DMA_EX

def writeDiskBlock : PortRegisters → Nat → BitVec 64 → BitVec 64 → BitVec 64 →
    HBACommand × Bool × Option Bool :=
  diskBlock 1 ATA_CMD_WRITE_DMA_EX

/-! ## The address in the command -/

namespace FISRegH2D

def lba (fis : FISRegH2D) : Nat :=
  fis.lba0.toNat + 2 ^ 8 * fis.lba1.toNat + 2 ^ 16 * fis.lba2.toNat + 2 ^ 24 * fis.lba3.toNat +
    2 ^ 32 * fis.lba4.toNat + 2 ^ 40 * fis.lba5.toNat

def count (fis : FISRegH2D) : Nat := fis.countLow.toNat + 256 * fis.countHigh.toNat

end FISRegH2D

section Encoding

variable {write : BitVec 1} {command : BitVec 8} {registers : PortRegisters} {fuel : Nat}
  {lba lba' count buffer : BitVec 64}

theorem diskBlock_slot : (diskBlock write command registers fuel lba count buffer).1 =
    buildCommand write command lba count buffer := by
  unfold diskBlock
  dsimp only
  split <;> rfl

/-- Bits 24 to 31 of the sector are lost, and the bits above come 8 places lower. -/
theorem buildCommand_lba (h : lba.toNat < 2 ^ 48) :
    (buildCommand write command lba count buffer).commandFIS.lba =
      lba.toNat % 2 ^ 24 + 2 ^ 24 * (lba.toNat / 2 ^ 32) := by
  simp only [FISRegH2D.lba, buildCommand, BitVec.toNat_setWidth, BitVec.toNat_ushiftRight,
    Nat.shiftRight_eq_div_pow]
  omega

theorem buildCommand_count (h : count.toNat < 65536) :
    (buildCommand write command lba count buffer).commandFIS.count = count.toNat := by
  have hlow : count.toNat &&& 255 = count.toNat % 2 ^ 8 :=
    Nat.and_two_pow_sub_one_eq_mod count.toNat 8
  have hhigh : count.toNat / 2 ^ 8 &&& 255 = count.toNat / 2 ^ 8 % 2 ^ 8 :=
    Nat.and_two_pow_sub_one_eq_mod _ 8
  have hmask : BitVec.toNat (0xFF : BitVec 64) = 255 := rfl
  simp only [FISRegH2D.count, buildCommand, BitVec.toNat_setWidth, BitVec.toNat_and,
    BitVec.toNat_ushiftRight, Nat.shiftRight_eq_div_pow, hmask, hlow, hhigh]
  omega

def Encodes (slot : HBACommand) (lba count : BitVec 64) : Prop :=
  slot.commandFIS.lba = lba.toNat ∧ slot.commandFIS.count = count.toNat

private theorem buildCommand_encodes (hlba : lba.toNat < 2 ^ 48) (hcount : count.toNat < 65536) :
    Encodes (buildCommand write command lba count buffer) lba count ↔ lba.toNat < 2 ^ 24 := by
  rw [Encodes, buildCommand_lba hlba, buildCommand_count hcount]
  omega

/--
Both functions encode a sector exactly when it is below `2 ^ 24`, and send two
sectors as one address exactly when they differ in bits 24 to 31 at most.
-/
theorem diskBlock_encodes_iff (hlba : lba.toNat < 2 ^ 48) (hlba' : lba'.toNat < 2 ^ 48)
    (hcount : count.toNat < 65536) :
    (Encodes (readDiskBlock registers fuel lba count buffer).1 lba count ↔
      lba.toNat < 2 ^ 24) ∧
    (Encodes (writeDiskBlock registers fuel lba count buffer).1 lba count ↔
      lba.toNat < 2 ^ 24) ∧
    ((readDiskBlock registers fuel lba count buffer).1.commandFIS.lba =
        (readDiskBlock registers fuel lba' count buffer).1.commandFIS.lba ↔
      lba.toNat % 2 ^ 24 = lba'.toNat % 2 ^ 24 ∧ lba.toNat / 2 ^ 32 = lba'.toNat / 2 ^ 32) ∧
    ((writeDiskBlock registers fuel lba count buffer).1.commandFIS.lba =
        (writeDiskBlock registers fuel lba' count buffer).1.commandFIS.lba ↔
      lba.toNat % 2 ^ 24 = lba'.toNat % 2 ^ 24 ∧ lba.toNat / 2 ^ 32 = lba'.toNat / 2 ^ 32) := by
  rw [readDiskBlock, writeDiskBlock]
  simp only [diskBlock_slot, buildCommand_encodes hlba hcount, buildCommand_lba hlba,
    buildCommand_lba hlba', true_and]
  omega

/-- Sector `2 ^ 24` is sent to the drive as sector 0. -/
theorem sector_sent_as_zero :
    ¬ Encodes (readDiskBlock ⟨fun _ => 0, fun _ => 0, fun _ => 0⟩ 1 0x1000000 1 0x1000).1
      0x1000000 1 ∧
    (readDiskBlock ⟨fun _ => 0, fun _ => 0, fun _ => 0⟩ 1 0x1000000 1 0x1000).1.commandFIS.lba =
      (readDiskBlock ⟨fun _ => 0, fun _ => 0, fun _ => 0⟩ 1 0 1 0x1000).1.commandFIS.lba := by
  constructor
  · rintro ⟨hlba, -⟩
    revert hlba
    rw [readDiskBlock, diskBlock_slot]
    decide
  · rw [readDiskBlock, diskBlock_slot, diskBlock_slot]
    decide

theorem diskBlock_encodes_first_sectors :
    Encodes (readDiskBlock ⟨fun _ => 0, fun _ => 0, fun _ => 0⟩ 1 0xFFFFFF 8 0x1000).1
      0xFFFFFF 8 :=
  (@diskBlock_encodes_iff _ _ 0xFFFFFF 0 8 0x1000 (by decide) (by decide) (by decide)).1.mpr
    (by decide)

end Encoding

end UnifiedOS.Drivers.AHCI
