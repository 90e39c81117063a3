import UnifiedOS.FileSystem.DiskCommands

/-!
# Partitions of a disk

`PartitionDevice` adds the start of the partition to every address and passes
the request on to its disk.  `EndLBA` is stored and never looked at.  A request
therefore stays within the partition exactly when its own numbers keep it there.
-/

namespace UnifiedOS.FileSystem

open UnifiedOS.Foundation
open DiskDevice

structure PartitionDevice where
  startLBA : UInt64
  endLBA : UInt64
  ordered : startLBA ≤ endLBA
  parentDisk : DiskDevice

namespace PartitionDevice

def readAbsolute (part : PartitionDevice) (off count : UInt64) (buffer : Nat) (s : DiskState) :
    DiskState :=
  (part.parentDisk.read (off + 0x200 * part.startLBA).toNat (count * 0x200).toNat buffer s).2

def readBlock (part : PartitionDevice) (lba count : UInt64) (buffer : Nat) (s : DiskState) :
    DiskState :=
  (part.parentDisk.readBlocks (lba + part.startLBA).toNat count.toNat buffer s).2

def writeBlock (part : PartitionDevice) (lba count : UInt64) (buffer : Nat) (s : DiskState) :
    DiskState :=
  (part.parentDisk.writeBlocks (lba + part.startLBA).toNat count.toNat buffer s).2

def read (part : PartitionDevice) (off size : UInt64) (buffer : Nat) (s : DiskState) :
    DiskState :=
  (part.parentDisk.read (off + 0x200 * part.startLBA).toNat size.toNat buffer s).2

def write (part : PartitionDevice) (off size : UInt64) (buffer : Nat) (s : DiskState) :
    DiskState :=
  (part.parentDisk.write (off + 0x200 * part.startLBA).toNat size.toNat buffer s).2

end PartitionDevice

inductive PartitionCall where
  | readAbsolute (off count : UInt64) (buffer : Nat)
  | readBlock (lba count : UInt64) (buffer : Nat)
  | writeBlock (lba count : UInt64) (buffer : Nat)
  | read (off size : UInt64) (buffer : Nat)
  | write (off size : UInt64) (buffer : Nat)
  deriving DecidableEq

def PartitionCall.run (part : PartitionDevice) (call : PartitionCall) (s : DiskState) :
    DiskState :=
  match call with
  | readAbsolute off count buffer => part.readAbsolute off count buffer s
  | readBlock lba count buffer => part.readBlock lba count buffer s
  | writeBlock lba count buffer => part.writeBlock lba count buffer s
  | read off size buffer => part.read off size buffer s
  | write off size buffer => part.write off size buffer s

namespace PartitionDevice

/-! ## Confinement -/

def Contains (part : PartitionDevice) (sector : Nat) : Prop :=
  part.startLBA.toNat ≤ sector ∧ sector ≤ part.endLBA.toNat

instance (part : PartitionDevice) (sector : Nat) : Decidable (part.Contains sector) :=
  inferInstanceAs (Decidable (_ ∧ _))

def Disjoint (part other : PartitionDevice) : Prop :=
  ∀ sector, part.Contains sector → ¬ other.Contains sector

/-- From `s` to `s'` only sectors of the partition are transferred. -/
structure Confined (part : PartitionDevice) (s s' : DiskState) : Prop where
  sectors : ∃ issued, s'.commands = issued ++ s.commands ∧
    ∀ command ∈ issued, ∀ sector ∈ command.sectors, part.Contains sector
  others : ∀ other : PartitionDevice, part.Disjoint other →
    ∀ y, other.Contains (y / 512) → s'.disk y = s.disk y

section Confined

variable {part : PartitionDevice} {s s' : DiskState} {A : Set Nat}

/-- Confinement is a matter of the sectors addressed. -/
theorem confined_iff_sectors (h : Addresses s s' A) :
    part.Confined s s' ↔ ∀ sector ∈ A, part.Contains sector := by
  obtain ⟨issued, hcommands, hsectors⟩ := h.commands
  constructor
  · intro hconfined sector hmem
    obtain ⟨issued', hcommands', hinside⟩ := hconfined.sectors
    have hissued : issued' = issued :=
      List.append_cancel_right (hcommands'.symm.trans hcommands)
    obtain ⟨command, hcommand, hsector⟩ := (hsectors sector).mp hmem
    exact hinside command (hissued ▸ hcommand) sector hsector
  · intro hinside
    constructor
    · refine ⟨issued, hcommands, ?_⟩
      intro command hcommand sector hsector
      exact hinside sector ((hsectors sector).mpr ⟨command, hcommand, hsector⟩)
    · intro other hdisjoint y hy
      have hend := other.endLBA.toNat_lt
      have hlast := hy.2
      apply h.disk y (by omega)
      intro hmem
      exact hdisjoint _ (hinside _ hmem) hy

def BlocksFit (part : PartitionDevice) (lba count : UInt64) : Prop :=
  count.toNat = 0 ∨
  lba.toNat + count.toNat ≤ part.endLBA.toNat - part.startLBA.toNat + 1 ∨
  (part.startLBA.toNat = 0 ∧ part.endLBA.toNat = 2 ^ 64 - 1)

theorem sectorsFrom_inside_iff (lba count : UInt64) :
    (∀ sector ∈ sectorsFrom (lba + part.startLBA).toNat count.toNat, part.Contains sector) ↔
      part.BlocksFit lba count := by
  have hordered : part.startLBA.toNat ≤ part.endLBA.toNat := UInt64.le_iff_toNat_le.mp part.ordered
  have hend := part.endLBA.toNat_lt
  have hlba := lba.toNat_lt
  have hcount := count.toNat_lt
  rw [UInt64.toNat_add, BlocksFit]
  constructor
  · intro hinside
    by_cases hzero : count.toNat = 0
    · exact Or.inl hzero
    · have hsector : ∀ k < count.toNat, part.Contains
          (wrap64 ((lba.toNat + part.startLBA.toNat) % 2 ^ 64 + k)) :=
        fun k hk => hinside _ ⟨k, hk, rfl⟩
      have hfirst := (hsector 0 (by omega)).1
      rw [Nat.add_zero, wrap64_of_lt (Nat.mod_lt _ (by norm_num))] at hfirst
      have hstart : (lba.toNat + part.startLBA.toNat) % 2 ^ 64 =
          lba.toNat + part.startLBA.toNat := by omega
      rw [hstart] at hsector
      by_cases hlast : lba.toNat + part.startLBA.toNat + count.toNat ≤ 2 ^ 64
      · have hle := (hsector (count.toNat - 1) (by omega)).2
        rw [wrap64_of_lt (by omega)] at hle
        omega
      · -- the sectors go on past the last one: both ends of the disk belong to them
        have hlowest := (hsector (2 ^ 64 - (lba.toNat + part.startLBA.toNat)) (by omega)).1
        have hhighest := (hsector (2 ^ 64 - 1 - (lba.toNat + part.startLBA.toNat)) (by omega)).2
        unfold wrap64 at hlowest hhighest
        omega
  · rintro hfits sector ⟨k, hk, rfl⟩
    unfold Contains wrap64
    omega

def RequestFits (part : PartitionDevice) (off size : Nat) : Prop :=
  let first := off / 512
  let blocks := afterFirst off size / 512
  part.startLBA.toNat ≤ first ∧ first + loopReach blocks ≤ part.endLBA.toNat ∧
  (afterFirst off size % 512 ≠ 0 → first + 1 + blocks ≤ part.endLBA.toNat) ∧
  (2 ^ 31 + 2 < blocks → ∀ k < 2,
    part.Contains (wrap64 (first + loopReach blocks + (2 ^ 64 - 2 ^ 32) + k)))

private theorem contains_sectorsFrom_one {lba : Nat} (hlba : lba < 2 ^ 64) :
    (∀ sector ∈ sectorsFrom lba 1, part.Contains sector) ↔ part.Contains lba := by
  simp [sectorsFrom, wrap64_of_lt hlba]

theorem requestSectors_inside_iff {off : Nat} (hoff : off < 2 ^ 64) (size : Nat) :
    (∀ sector ∈ requestSectors off size, part.Contains sector) ↔ part.RequestFits off size := by
  have hlt : afterFirst off size < 2 ^ 64 := sub64_lt _ _
  have hreach := loopReach_lt (afterFirst off size / 512)
  have hlast : wrap64 (off / 512 + 1 + afterFirst off size / 512) =
      off / 512 + 1 + afterFirst off size / 512 := wrap64_of_lt (by omega)
  have hloop : ∀ j < loopReach (afterFirst off size / 512),
      wrap64 (off / 512 + 1 + j) = off / 512 + 1 + j := fun j hj => wrap64_of_lt (by omega)
  unfold requestSectors RequestFits
  dsimp only
  rw [loopBlocks_eq (by omega), hlast]
  constructor
  · intro hinside
    have hfirst := (contains_sectorsFrom_one (by omega)).mp fun sector hmem =>
      hinside sector (Or.inl (Or.inl hmem))
    have hmiddle : ∀ j, j < loopReach (afterFirst off size / 512) ∨
        j ∈ strayBlocks (afterFirst off size / 512) →
          part.Contains (wrap64 (off / 512 + 1 + j)) :=
      fun j hj => hinside _ (Or.inl (Or.inr ⟨j, hj, rfl⟩))
    refine ⟨hfirst.1, ?_, ?_, ?_⟩
    · by_cases hzero : loopReach (afterFirst off size / 512) = 0
      · rw [hzero]
        exact hfirst.2
      · have hle := (hmiddle _ (Or.inl (Nat.sub_one_lt hzero))).2
        rw [hloop _ (by omega)] at hle
        omega
    · intro hexcess
      rw [if_neg hexcess] at hinside
      exact ((contains_sectorsFrom_one (by omega)).mp fun sector hmem =>
        hinside sector (Or.inr hmem)).2
    · intro hlong k hk
      have hpos := le_loopReach (show 2 ^ 31 < afterFirst off size / 512 by omega)
      have hstray := hmiddle _ (Or.inr (mem_strayBlocks.mpr ⟨hlong, k, hk, rfl⟩))
      convert hstray using 2
      omega
  · rintro ⟨hstart, hreached, hexcess, hstray⟩ sector ((hmem | ⟨j, hj | hj, rfl⟩) | hmem)
    · exact (contains_sectorsFrom_one (by omega)).mpr ⟨hstart, by omega⟩ sector hmem
    · have hj : j < loopReach (afterFirst off size / 512) := hj
      rw [hloop j hj]
      exact ⟨by omega, by omega⟩
    · obtain ⟨hlong, k, hk, rfl⟩ := mem_strayBlocks.mp hj
      have hpos := le_loopReach (show 2 ^ 31 < afterFirst off size / 512 by omega)
      convert hstray hlong k hk using 2
      omega
    · by_cases hzero : afterFirst off size % 512 = 0
      · rw [if_pos hzero] at hmem
        exact absurd hmem (Set.notMem_empty sector)
      · rw [if_neg hzero] at hmem
        have hle := hexcess hzero
        exact (contains_sectorsFrom_one (by omega)).mpr ⟨by omega, hle⟩ sector hmem

/-- A request that reaches the end of its first sector and is not too long for the loop. -/
theorem requestFits_iff_inside {off size : Nat} (hsize : size / 512 < 2 ^ 31)
    (hreach : 512 ≤ off % 512 + size) :
    part.RequestFits off size ↔
      part.startLBA.toNat ≤ off / 512 ∧ off + size ≤ 512 * (part.endLBA.toNat + 1) := by
  have hafter : afterFirst off size = size - (512 - off % 512) :=
    sub64_of_le (by omega) (by omega)
  have hblocks : loopReach (afterFirst off size / 512) = afterFirst off size / 512 := by
    rw [loopReach, if_pos (by omega)]
  unfold RequestFits
  dsimp only
  rw [hblocks]
  constructor
  · rintro ⟨hstart, hloop, hexcess, -⟩
    omega
  · rintro ⟨hstart, hend⟩
    exact ⟨hstart, by omega, fun _ => by omega, fun hlong => by omega⟩

/-- A request that ends inside its first sector wraps around and runs off with the loop. -/
theorem requestFits_short {off size : Nat} (hshort : off % 512 + size < 512)
    (hfits : part.RequestFits off size) : 2 ^ 31 + 6 ≤ part.endLBA.toNat := by
  have hafter : afterFirst off size = 2 ^ 64 - (512 - off % 512 - size) := by
    unfold afterFirst sub64
    omega
  have hreach : loopReach (afterFirst off size / 512) = 2 ^ 31 + 6 := by
    rw [loopReach, if_neg (by omega), if_neg (by omega), if_neg (by omega)]
  have hlast : off / 512 + loopReach (afterFirst off size / 512) ≤ part.endLBA.toNat :=
    hfits.2.1
  omega

end Confined

/-! ## The five entry points -/

/-- What keeps a call inside the partition: no free buffer, or numbers that fit. -/
def Fits (part : PartitionDevice) (s : DiskState) : PartitionCall → Prop
  | .readAbsolute off count _ => s.bufferLock = 0xFF#8 ∨
      part.RequestFits (off + 0x200 * part.startLBA).toNat (count * 0x200).toNat
  | .readBlock lba count _ => part.BlocksFit lba count
  | .writeBlock lba count _ => part.BlocksFit lba count
  | .read off size _ => s.bufferLock = 0xFF#8 ∨
      part.RequestFits (off + 0x200 * part.startLBA).toNat size.toNat
  | .write off size _ => s.bufferLock = 0xFF#8 ∨
      part.RequestFits (off + 0x200 * part.startLBA).toNat size.toNat

section Calls

variable {part : PartitionDevice} {s s' : DiskState}

theorem confined_self : part.Confined s s :=
  (confined_iff_sectors (Addresses.empty rfl rfl)).mpr fun _ hmem =>
    absurd hmem (Set.notMem_empty _)

theorem request_confined_iff {off size : Nat} (hoff : off < 2 ^ 64)
    (hfull : s.bufferLock = 0xFF#8 → s' = s)
    (haddresses : s.bufferLock ≠ 0xFF#8 → Addresses s s' (requestSectors off size)) :
    part.Confined s s' ↔ s.bufferLock = 0xFF#8 ∨ part.RequestFits off size := by
  by_cases hlock : s.bufferLock = 0xFF#8
  · rw [hfull hlock]
    exact iff_of_true confined_self (Or.inl hlock)
  · rw [confined_iff_sectors (haddresses hlock), requestSectors_inside_iff hoff]
    simp [hlock]

/--
A call through a partition stays inside it, and leaves every disjoint partition
as it is, exactly when the numbers it was given fit the partition.
-/
theorem confined_iff (hb : part.parentDisk.blocksize = 512) (call : PartitionCall)
    (s : DiskState) : part.Confined s (call.run part s) ↔ part.Fits s call := by
  cases call with
  | readAbsolute off count buffer =>
      exact request_confined_iff (UInt64.toNat_lt _) (fun hfull => read_of_full hfull buffer)
        (fun hfree => read_addresses hb hfree buffer)
  | readBlock lba count buffer =>
      exact (confined_iff_sectors (readBlocks_addresses count.toNat_lt buffer)).trans
        (sectorsFrom_inside_iff lba count)
  | writeBlock lba count buffer =>
      exact (confined_iff_sectors (writeBlocks_addresses count.toNat_lt buffer)).trans
        (sectorsFrom_inside_iff lba count)
  | read off size buffer =>
      exact request_confined_iff (UInt64.toNat_lt _) (fun hfull => read_of_full hfull buffer)
        (fun hfree => read_addresses hb hfree buffer)
  | write off size buffer =>
      exact request_confined_iff (UInt64.toNat_lt _) (fun hfull => write_of_full hfull buffer)
        (fun hfree => write_addresses hb hfree (UInt64.toNat_lt _) buffer)

end Calls

def smallPartition : PartitionDevice := ⟨8, 15, by decide, idleDevice⟩

/-- A `Write` of the whole partition, and a `Read` of 100 bytes. -/
theorem confined_iff_small :
    smallPartition.Confined idleState
      ((PartitionCall.write 0 4096 0x100000).run smallPartition idleState) ∧
    ¬ smallPartition.Confined idleState
      ((PartitionCall.read 0 100 0x100000).run smallPartition idleState) := by
  constructor
  · refine (confined_iff rfl _ _).mpr (Or.inr ?_)
    exact (requestFits_iff_inside (by decide) (by decide)).mpr ⟨by decide, by decide⟩
  · rw [confined_iff rfl]
    rintro (hfull | hfits)
    · exact absurd hfull (by decide)
    · exact absurd (requestFits_short (by decide) hfits) (by decide)

/-- The sector behind the partition is written when it is asked for. -/
theorem writeBlock_leaves_partition :
    ¬ smallPartition.Confined idleState
      ((PartitionCall.writeBlock 8 1 0x100000).run smallPartition idleState) := by
  have haddresses : Addresses idleState
      ((PartitionCall.writeBlock 8 1 0x100000).run smallPartition idleState) (sectorsFrom 16 1) :=
    writeBlocks_addresses (by decide) 0x100000
  rw [confined_iff_sectors haddresses]
  intro hinside
  have hlast := (hinside 16 ⟨0, by norm_num, rfl⟩).2
  exact absurd hlast (by decide)

end PartitionDevice

end UnifiedOS.FileSystem
