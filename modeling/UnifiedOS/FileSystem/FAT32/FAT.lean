import UnifiedOS.FileSystem.ByteInteraction
import UnifiedOS.Foundation.MachineInt

/-!
# The file allocation table

A FAT32 partition is its boot-sector fields and the bytes of its sectors;
`Read` fills a buffer, whose other bytes stay what the heap left there, so that
reads behind the buffer are reads of the heap.  `ScanForEntries` lists the
clusters of a file.  Its loop need not end, so it runs on fuel.  A division by
zero is read as Lean does.
-/

namespace UnifiedOS.FileSystem.FAT32

open UnifiedOS.Foundation

structure FAT32MBR where
  bytesPerSector : BitVec 16
  sectorsPerCluster : BitVec 8
  reservedSectors : BitVec 16
  numberOfFATs : BitVec 8
  sectorsPerFAT : BitVec 32

structure Fat32Partition where
  mbr : FAT32MBR
  volume : ByteMemory
  /-- Whether a `Read` of this offset and size succeeds. -/
  succeeds : Nat → Nat → Bool

namespace FAT32MBR

/-- `(SectorsPerFAT * BytesPerSector) / 4`, in `uint32_t` -/
def fatEntries (mbr : FAT32MBR) : Nat :=
  mbr.sectorsPerFAT.toNat * mbr.bytesPerSector.toNat % 2 ^ 32 / 4

/-- `(ReservedSectors + (SectorsPerFAT * NumberOfFATs)) / SectorsPerCluster` -/
def dataClusters (mbr : FAT32MBR) : Nat :=
  (mbr.reservedSectors.toNat + mbr.sectorsPerFAT.toNat * mbr.numberOfFATs.toNat) % 2 ^ 32 /
    mbr.sectorsPerCluster.toNat

end FAT32MBR

/-- `Read(off, size, buffer)`: the buffer afterwards, unless it fails. -/
def Fat32Partition.read (disk : Fat32Partition) (off size : Nat) (buffer : ByteMemory) :
    Option ByteMemory :=
  if disk.succeeds off size then
    some fun i => if i < size then disk.volume (off + i) else buffer i
  else none

/-! ## Following a chain -/

/-- The locals of `ScanForEntries` that do not change. -/
structure Scan where
  clusterStartNumber : Nat
  clusterAddition : Nat
  isFat2 : Bool

namespace Scan

def start (mbr : FAT32MBR) (clusterStartNumber : Nat) : Scan :=
  let clusterStartNumber := (if clusterStartNumber < 2 then 2 else clusterStartNumber) - 2
  if (clusterStartNumber + 2) / mbr.fatEntries ≠ 0 then ⟨clusterStartNumber, 4, true⟩
  else ⟨clusterStartNumber, 2, false⟩

/-- `(ClusterStartNumber + ClusterAddition) / fatEntries + ReservedSectors` -/
def newSector (s : Scan) (mbr : FAT32MBR) : Nat :=
  wrap64 (wrap64 (s.clusterStartNumber + s.clusterAddition) / mbr.fatEntries +
    mbr.reservedSectors.toNat)

def startSector (s : Scan) (mbr : FAT32MBR) : Nat :=
  wrap64 (s.newSector mbr +
    if s.isFat2 then mbr.sectorsPerFAT.toNat / mbr.sectorsPerCluster.toNat else 0)

/-- What `add_back` stores for an entry, as a `uint32_t`. -/
def represent (s : Scan) (mbr : FAT32MBR) (entry : BitVec 32) : BitVec 32 :=
  entry - BitVec.ofNat 32 s.clusterAddition +
    (if s.isFat2 then BitVec.ofNat 32 mbr.fatEntries else 0) +
    BitVec.ofNat 32 mbr.dataClusters

end Scan

/-- `LittleEndian(Get4Byte(Sector, CurrentEntryPos * 4)) & 0xFFFFFF` -/
def entryAt (sector : ByteMemory) (currentEntryPos : Nat) : BitVec 32 :=
  littleEndian32 (get4Byte sector (currentEntryPos * 4)) &&& 0xFFFFFF#32

def Scan.readSector (s : Scan) (disk : Fat32Partition) (sector : ByteMemory) :
    Option ByteMemory :=
  disk.read (wrap64 (disk.mbr.bytesPerSector.toNat * s.startSector disk.mbr))
    disk.mbr.bytesPerSector.toNat sector

def scanLoop (disk : Fat32Partition) (s : Scan) :
    Nat → ByteMemory → Nat → BitVec 32 → Option (List (BitVec 32))
  | 0, _, _, _ => none
  | fuel + 1, sector, prevSector, currentEntry =>
      if currentEntry = 0xFFFFFF#32 then some []
      else
        let newSector := s.newSector disk.mbr
        -- the loop does not look at the outcome of this read
        let sector := if newSector ≠ prevSector then
          (s.readSector disk sector).getD sector else sector
        let currentEntryPos :=
          (currentEntry + BitVec.ofNat 32 s.clusterAddition).toNat % disk.mbr.fatEntries
        (scanLoop disk s fuel sector newSector (entryAt sector currentEntryPos)).map
          (s.represent disk.mbr currentEntry :: ·)

/--
`ScanForEntries`: nothing when the fuel does not suffice, and then the list of
clusters, or `none` for the null pointer.
-/
def scanForEntries (disk : Fat32Partition) (heap : ByteMemory) (fuel : Nat)
    (clusterStartNumber : Nat) : Option (Option (List (BitVec 32))) :=
  let s := Scan.start disk.mbr clusterStartNumber
  match s.readSector disk heap with
  | none => some none
  | some sector =>
      let currentEntryPos :=
        wrap64 (s.clusterStartNumber + s.clusterAddition) % disk.mbr.fatEntries
      (scanLoop disk s fuel sector (s.startSector disk.mbr)
        (entryAt sector currentEntryPos)).map fun clusters =>
          some (s.represent disk.mbr (BitVec.ofNat 32 currentEntryPos) :: clusters)

end UnifiedOS.FileSystem.FAT32
