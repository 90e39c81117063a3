import UnifiedOS.FileSystem.FAT32.Directory

/-!
# Resolving a path

`ResolveFile` looks the sections of a path up one after the other.  The loop
over the root directory and the one over a subdirectory are two copies of the
same code, with `level` 0 for the root.  `heap level k` is what the heap left in
the buffers of a level: the sector of `ScanForEntries`, the cluster of
`ReadDirectoryEntries`, and then a name for each entry.
-/

namespace UnifiedOS.FileSystem.FAT32

open UnifiedOS.Foundation

structure GeneralAttributes where
  hidden : Bool
  directory : Bool
  readOnly : Bool
  archive : Bool

/-- An array that was not allocated is `none`. -/
structure GeneralFile where
  name : Option (List Byte)
  extention : Option (List Byte)
  fullPath : Option (List Byte)
  fileSize : BitVec 64
  sectors : Option (List (BitVec 64))
  sectorCount : Nat
  attributes : GeneralAttributes
  disk : Option Fat32Partition
  found : Bool

def GeneralFile.empty : GeneralFile :=
  ⟨none, none, none, 0, none, 0, ⟨false, false, false, false⟩, none, false⟩

/-! ## The name of an entry -/

def memcmp (a b : ByteMemory) (size : Nat) : Bool :=
  (List.range size).all fun i => a i == b i

def LongFileNameEntry.nameBytes (r : LongFileNameEntry) : List Byte :=
  List.ofFn (fileName1 r) ++ List.ofFn (fileName2 r) ++ List.ofFn (fileName3 r)

/-- `Skip` changes with every byte; 0x00 and 0xFF are no characters. -/
def characters : Bool → List Byte → List Byte
  | _, [] => []
  | skip, b :: bytes =>
      if !skip && b != 0x00#8 && b != 0xFF#8 then b :: characters (!skip) bytes
      else characters (!skip) bytes

/-- The last piece on the disk is the first of the name. -/
def longName (lfne : List LongFileNameEntry) : List Byte :=
  characters false (lfne.reverse.flatMap LongFileNameEntry.nameBytes)

namespace RootDirectoryEntry

def isDirectory (r : RootDirectoryEntry) : Bool :=
  checkForAttribute r.fileAttributes .directory false

def isSystemFile (r : RootDirectoryEntry) : Bool :=
  checkForAttribute r.fileAttributes .systemFile false

/-- Room for the characters of the short name, and for a dot in that of a file. -/
def entrySize (r : RootDirectoryEntry) : Nat :=
  (if r.isDirectory then 0 else 1) + (List.ofFn r.fileName).countP (· != 0x20#8)

end RootDirectoryEntry

def lowerCase (b : Byte) : Byte := if 0x41#8 ≤ b ∧ b ≤ 0x5A#8 then b + 0x20#8 else b

def shortCharacters (isDirectory : Bool) (entrySize : Nat) : Nat → Bool → List Byte → List Byte
  | _, _, [] => []
  | posInName, countedExtention, b :: bytes =>
      if posInName < entrySize then
        if b != 0x20#8 then
          lowerCase b ::
            shortCharacters isDirectory entrySize (posInName + 1) countedExtention bytes
        else if !countedExtention && !isDirectory then
          0x2E#8 :: shortCharacters isDirectory entrySize (posInName + 1) true bytes
        else shortCharacters isDirectory entrySize posInName countedExtention bytes
      else []

def shortName (r : RootDirectoryEntry) : List Byte :=
  shortCharacters r.isDirectory r.entrySize 0 false (List.ofFn r.fileName)

/-- `EntryName[PosInName++] = b` for every character; the position is a `uint8_t`. -/
def writeName (buffer : ByteMemory) : Nat → List Byte → ByteMemory
  | _, [] => buffer
  | posInName, b :: bytes => writeName (buffer.poke posInName b) ((posInName + 1) % 256) bytes

namespace DirectoryEntry

def nameSize (entry : DirectoryEntry) : Nat :=
  if entry.lfne.length > 0 then (longName entry.lfne).length else entry.rde.entrySize

def characters (entry : DirectoryEntry) : List Byte :=
  if entry.lfne.length > 0 then longName entry.lfne else shortName entry.rde

/-- `EntryName`, in a buffer that the heap left as it was. -/
def entryName (entry : DirectoryEntry) (heap : ByteMemory) : ByteMemory :=
  writeName heap 0 entry.characters

end DirectoryEntry

/-! ## Looking a section of the path up -/

structure Search where
  subdirectories : Nat
  level : Nat
  /-- `SectionSpacing.get_at(level)` -/
  sectionSpacing : Nat
  /-- `Path + OffsetIntoPath` -/
  path : ByteMemory

/-- A directory where more sections follow, a file at the last section. -/
def Search.isKind (s : Search) (r : RootDirectoryEntry) : Bool :=
  (decide (s.subdirectories > s.level) && r.isDirectory && !r.isSystemFile) ||
    (decide (s.subdirectories = s.level) && !r.isDirectory && !r.isSystemFile)

def Search.correctEntry (s : Search) (heap : ByteMemory) (entry : DirectoryEntry) : Bool :=
  s.isKind entry.rde && decide (entry.nameSize = s.sectionSpacing) &&
    memcmp (entry.entryName heap) s.path entry.nameSize

/-- `((High << 16) & 0xFF00) | Low` -/
def newClusterPosition (r : RootDirectoryEntry) : BitVec 32 :=
  r.high2BytesOfAddressOfFirstCluster.setWidth 32 <<< 16 &&& 0xFF00#32 |||
    r.low2BytesOfAddressOfFirstCluster.setWidth 32

/-- The file that the loop returns, or the cluster it leaves for the next level. -/
inductive Found where
  | file (entryName : ByteMemory) (entry : DirectoryEntry)
  | next (newClusterPosition : BitVec 32)

def Search.lookUp (s : Search) (heap : Nat → ByteMemory) :
    Nat → BitVec 32 → List DirectoryEntry → Found
  | _, cluster, [] => .next cluster
  | i, cluster, entry :: entries =>
      if s.correctEntry (heap (i + 2)) entry then
        if s.subdirectories = s.level then .file (entry.entryName (heap (i + 2))) entry
        else s.lookUp heap (i + 1) (newClusterPosition entry.rde) entries
      else s.lookUp heap (i + 1) cluster entries

/-! ## The file -/

/-- `ExtentionPos`, a `uint16_t`: the place of the last dot before `x`. -/
def extentionPos (entryName : ByteMemory) : Nat → Nat
  | 0 => 0
  | x + 1 => if entryName x = 0x2E#8 then x % 2 ^ 16 else extentionPos entryName x

def bytesAt (buffer : ByteMemory) (start size : Nat) : List Byte :=
  (List.range size).map fun i => buffer (start + i)

def sectorsOf (mbr : FAT32MBR) (clusters : List (BitVec 32)) : List (BitVec 64) :=
  clusters.flatMap fun cluster => (List.range mbr.sectorsPerCluster.toNat).map fun s =>
    (cluster * mbr.sectorsPerCluster.setWidth 32 + BitVec.ofNat 32 s).setWidth 64

def createFile (disk : Fat32Partition) (path : List Byte) (sectionSpacing : Nat)
    (entryName : ByteMemory) (entry : DirectoryEntry) (clusters : List (BitVec 32)) :
    GeneralFile :=
  let pos := extentionPos entryName sectionSpacing
  { name := some (bytesAt entryName 0 (if pos ≠ 0 then pos else sectionSpacing))
    extention := if pos ≠ 0 then
      some (bytesAt entryName (pos + 1) (sectionSpacing - pos - 1)) else none
    fullPath := some path
    fileSize := entry.rde.fileSize.setWidth 64
    sectors := some (sectorsOf disk.mbr clusters)
    sectorCount := clusters.length * disk.mbr.sectorsPerCluster.toNat
    attributes :=
      { hidden := checkForAttribute entry.rde.fileAttributes .hidden false
        directory := checkForAttribute entry.rde.fileAttributes .directory false
        readOnly := checkForAttribute entry.rde.fileAttributes .readOnly false
        archive := checkForAttribute entry.rde.fileAttributes .archive false }
    disk := some disk
    found := true }

/-! ## The levels -/

def readDirectory (disk : Fat32Partition) (heap : Nat → ByteMemory) (fuel : Nat)
    (cluster : BitVec 32) : Option (Option (List DirectoryEntry)) :=
  (scanForEntries disk (heap 0) fuel cluster.toNat).map
    (·.bind (readDirectoryEntries disk (heap 1)))

/--
The levels from `level` on, one for each section that is left.  There is no
result where the fuel does not suffice, or where the driver follows the null
pointer of a failed read.
-/
def resolveLevels (disk : Fat32Partition) (heap : Nat → Nat → ByteMemory) (fuel : Nat)
    (path : List Byte) (subdirectories : Nat) :
    List Nat → Nat → Nat → BitVec 32 → Option GeneralFile
  | [], _, _, _ => some .empty
  | sectionSpacing :: sectionSpacings, level, offsetIntoPath, cluster =>
      match readDirectory disk (heap level) fuel cluster with
      | none => none
      | some none => some .empty
      | some (some entries) =>
          let s : Search := ⟨subdirectories, level, sectionSpacing,
            fun i => path.getD (offsetIntoPath + i) 0#8⟩
          match s.lookUp (heap level) 0 cluster entries with
          | .file entryName entry =>
              match scanForEntries disk (heap (level + 1) 0) fuel
                (newClusterPosition entry.rde).toNat with
              | some (some clusters) =>
                  some (createFile disk path sectionSpacing entryName entry clusters)
              | _ => none
          | .next cluster =>
              resolveLevels disk heap fuel path subdirectories sectionSpacings (level + 1)
                (offsetIntoPath + sectionSpacing + 1) cluster

def isSeparator (b : Byte) : Bool := b == 0x2F#8 || b == 0x5C#8

def sectionSpacing : Nat → List Byte → List Nat
  | currentSpacing, [] => [currentSpacing]
  | currentSpacing, b :: path =>
      if isSeparator b then currentSpacing :: sectionSpacing 0 path
      else sectionSpacing (currentSpacing + 1) path

/--
`ResolveFile`.  The path is without its terminating zero.  On a path without a
separator the driver reads behind the vector, and there is no result here.
-/
def resolveFile (disk : Fat32Partition) (mount : BitVec 8) (heap : Nat → Nat → ByteMemory)
    (fuel : Nat) (path : List Byte) : Option GeneralFile :=
  if (path.getD 0 0#8).toInt = mount.toNat + 0x41 then
    match path.countP isSeparator with
    | 0 => none
    | subdirectories + 1 =>
        resolveLevels disk heap fuel path subdirectories (sectionSpacing 0 path).tail 0 3 0
  else some .empty

end UnifiedOS.FileSystem.FAT32
