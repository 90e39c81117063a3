import UnifiedOS.FileSystem.FAT32.FAT

/-!
# Directories

A directory is a sequence of 32-byte records.  The driver views a record as a
short entry or as a piece of a long name; both packed structures are the same
32 bytes, read at their own offsets.  `ReadDirectoryEntries` collects the pieces
in the entry it is building and completes the entry at the next short one.
-/

namespace UnifiedOS.FileSystem.FAT32

open UnifiedOS.Foundation

abbrev Record := Fin 32 → Byte

abbrev RootDirectoryEntry := Record

abbrev LongFileNameEntry := Record

namespace RootDirectoryEntry

def fileName (r : RootDirectoryEntry) (e : Fin 11) : Byte := r ⟨e, by omega⟩

def fileAttributes (r : RootDirectoryEntry) : Byte := r 11

def high2BytesOfAddressOfFirstCluster (r : RootDirectoryEntry) : BitVec 16 := r 21 ++ r 20

def low2BytesOfAddressOfFirstCluster (r : RootDirectoryEntry) : BitVec 16 := r 27 ++ r 26

def fileSize (r : RootDirectoryEntry) : BitVec 32 := r 31 ++ r 30 ++ r 29 ++ r 28

end RootDirectoryEntry

namespace LongFileNameEntry

def fileName1 (r : LongFileNameEntry) (x : Fin 10) : Byte := r ⟨1 + x, by omega⟩

def fileName2 (r : LongFileNameEntry) (x : Fin 12) : Byte := r ⟨14 + x, by omega⟩

def fileName3 (r : LongFileNameEntry) (x : Fin 4) : Byte := r ⟨28 + x, by omega⟩

end LongFileNameEntry

def longFileNameM : Byte := 0x0F

structure DirectoryEntry where
  rde : RootDirectoryEntry
  lfne : List LongFileNameEntry

/-! ## Attributes -/

inductive FileAttributes where
  | readOnly
  | hidden
  | systemFile
  | volumeLabel
  | longFileName
  | directory
  | archive
  deriving DecidableEq, Repr

def FileAttributes.mask : FileAttributes → Byte
  | .readOnly => 0x01
  | .hidden => 0x02
  | .systemFile => 0x04
  | .volumeLabel => 0x08
  | .longFileName => 0x0F
  | .directory => 0x10
  | .archive => 0x20

def FileAttributes.shift : FileAttributes → Nat
  | .readOnly => 0
  | .hidden => 1
  | .systemFile => 2
  | .volumeLabel => 3
  | .longFileName => 0
  | .directory => 4
  | .archive => 5

def checkForAttribute (attributes : Byte) (attributesMask : FileAttributes) (specific : Bool) :
    Bool :=
  let expected : Byte := if attributesMask = .longFileName then 0x0F else 1
  if specific then attributes == expected <<< attributesMask.shift
  else (attributes &&& attributesMask.mask) >>> attributesMask.shift == expected

/-! ## Listing a directory -/

def inUse (r : Record) : Bool := r 0 != 0x00#8 && r 0 != 0xE5#8

/--
The test of `ReadDirectoryEntries`.  `==` binds tighter than `&`, so the mask is
the outcome of comparing the constant with 0x0F, which is 1.
-/
def isLongFileName (r : Record) : Bool :=
  (RootDirectoryEntry.fileAttributes r &&&
    (if longFileNameM = 0x0F#8 then 1#8 else 0#8)) != 0#8

structure Collected where
  lfne : List LongFileNameEntry
  directories : List DirectoryEntry

def collect (s : Collected) (r : Record) : Collected :=
  if inUse r then
    if isLongFileName r then { s with lfne := s.lfne ++ [r] }
    else ⟨[], s.directories ++ [⟨r, s.lfne⟩]⟩
  else s

def recordsPerCluster (mbr : FAT32MBR) : Nat :=
  mbr.bytesPerSector.toNat * mbr.sectorsPerCluster.toNat / 32

def recordsIn (data : ByteMemory) (n : Nat) : List Record :=
  (List.range n).map fun j k => data (j * 32 + k)

/-- `Disk->Read(BytesPerSector * LBAs, ..)` for a cluster of the list. -/
def readCluster (disk : Fat32Partition) (heap : ByteMemory) (cluster : BitVec 32) :
    Option ByteMemory :=
  let lbas := (cluster * disk.mbr.sectorsPerCluster.setWidth 32).toNat
  disk.read (wrap64 (disk.mbr.bytesPerSector.toNat * lbas))
    (disk.mbr.bytesPerSector.toNat * disk.mbr.sectorsPerCluster.toNat) heap

/-- The loop over the clusters; `none` is the null pointer of a failed read. -/
def readDirectories (disk : Fat32Partition) (heap : ByteMemory) :
    List (BitVec 32) → List DirectoryEntry → Option (List DirectoryEntry)
  | [], directories => some directories
  | cluster :: clusters, directories =>
      match readCluster disk heap cluster with
      | none => none
      | some data =>
          let records := recordsIn data (recordsPerCluster disk.mbr)
          readDirectories disk heap clusters (records.foldl collect ⟨[], directories⟩).directories

def readDirectoryEntries (disk : Fat32Partition) (heap : ByteMemory)
    (clusters : List (BitVec 32)) : Option (List DirectoryEntry) :=
  readDirectories disk heap clusters []

/-! ## What a listing is made of -/

def clusterRecords (disk : Fat32Partition) (cluster : BitVec 32) : List Record :=
  recordsIn
    (fun i => disk.volume (wrap64 (disk.mbr.bytesPerSector.toNat *
      (cluster * disk.mbr.sectorsPerCluster.setWidth 32).toNat) + i))
    (recordsPerCluster disk.mbr)

section Listing

variable {disk : Fat32Partition} {heap : ByteMemory} {clusters : List (BitVec 32)}
  {directories : List DirectoryEntry} {records : List Record} {s : Collected}

@[simp] theorem length_clusterRecords (cluster : BitVec 32) :
    (clusterRecords disk cluster).length = recordsPerCluster disk.mbr := by
  simp [clusterRecords, recordsIn]

theorem recordsIn_readCluster {cluster : BitVec 32} {data : ByteMemory}
    (h : readCluster disk heap cluster = some data) :
    recordsIn data (recordsPerCluster disk.mbr) = clusterRecords disk cluster := by
  simp only [readCluster, Fat32Partition.read] at h
  split at h
  · have hdata := Option.some.inj h
    subst hdata
    unfold clusterRecords recordsIn
    refine List.map_congr_left fun j hj => ?_
    funext k
    rw [List.mem_range, recordsPerCluster] at hj
    have hk := k.isLt
    exact if_pos (by omega)
  · contradiction

theorem readCluster_isSome (hreads : ∀ off size, disk.succeeds off size = true)
    (cluster : BitVec 32) : ∃ data, readCluster disk heap cluster = some data :=
  ⟨_, if_pos (hreads _ _)⟩

theorem readDirectories_cons (hreads : ∀ off size, disk.succeeds off size = true)
    (cluster : BitVec 32) : readDirectories disk heap (cluster :: clusters) directories =
      readDirectories disk heap clusters
        ((clusterRecords disk cluster).foldl collect ⟨[], directories⟩).directories := by
  obtain ⟨data, hdata⟩ := @readCluster_isSome disk heap hreads cluster
  rw [readDirectories, hdata]
  simp only [recordsIn_readCluster hdata]

theorem collect_directories (r : Record) : ∃ added,
    (collect s r).directories = s.directories ++ added ∧
      added.map DirectoryEntry.rde = [r].filter fun r => inUse r && !isLongFileName r := by
  unfold collect
  cases hused : inUse r with
  | false => exact ⟨[], by simp, by simp [hused]⟩
  | true =>
      cases hlong : isLongFileName r with
      | true => exact ⟨[], by simp, by simp [hlong]⟩
      | false => exact ⟨[⟨r, s.lfne⟩], by simp, by simp [hused, hlong]⟩

theorem foldl_collect_rde :
    (records.foldl collect s).directories.map DirectoryEntry.rde =
      s.directories.map DirectoryEntry.rde ++
        records.filter fun r => inUse r && !isLongFileName r := by
  induction records generalizing s with
  | nil => simp
  | cons r records ih =>
      obtain ⟨added, heq, hadded⟩ := @collect_directories s r
      rw [List.foldl_cons, ih, heq, List.map_append, hadded, List.append_assoc,
        ← List.filter_append, List.singleton_append]

theorem readDirectories_rde (hreads : ∀ off size, disk.succeeds off size = true) :
    ∃ listing, readDirectories disk heap clusters directories = some listing ∧
      listing.map DirectoryEntry.rde = directories.map DirectoryEntry.rde ++
        (clusters.flatMap (clusterRecords disk)).filter fun r => inUse r && !isLongFileName r := by
  induction clusters generalizing directories with
  | nil => exact ⟨directories, rfl, by simp⟩
  | cons cluster clusters ih =>
      obtain ⟨listing, hlisting, hrde⟩ :=
        @ih ((clusterRecords disk cluster).foldl collect ⟨[], directories⟩).directories
      refine ⟨listing, ?_, ?_⟩
      · rw [readDirectories_cons hreads]
        exact hlisting
      · rw [hrde, foldl_collect_rde, List.flatMap_cons, List.filter_append, List.append_assoc]

end Listing

/-! ## Every entry is listed -/

def hasLongFileNameAttributes (r : Record) : Bool :=
  RootDirectoryEntry.fileAttributes r &&& 0x0F#8 == 0x0F#8

/-- One entry, in on-disk order, for each record in use that is no piece of a name. -/
def ListsEntries (disk : Fat32Partition) (heap : ByteMemory) (clusters : List (BitVec 32)) :
    Prop :=
  ∃ listing, readDirectoryEntries disk heap clusters = some listing ∧
    listing.map DirectoryEntry.rde = (clusters.flatMap (clusterRecords disk)).filter
      fun r => inUse r && !hasLongFileNameAttributes r

/-- No short entry is read-only: bit 0 is only set in pieces of long names. -/
def NoReadOnly (records : List Record) : Prop :=
  ∀ r ∈ records, inUse r = true → isLongFileName r = true →
    hasLongFileNameAttributes r = true

theorem isLongFileName_of_attributes {r : Record} (h : hasLongFileNameAttributes r = true) :
    isLongFileName r = true := by
  simp only [hasLongFileNameAttributes, beq_iff_eq] at h
  have hbit : RootDirectoryEntry.fileAttributes r &&& 1#8 = 1#8 := by
    have hmask := congrArg (· &&& 1#8) h
    simpa [BitVec.and_assoc] using hmask
  simp [isLongFileName, longFileNameM, hbit]

section Listed

variable {disk : Fat32Partition} {heap : ByteMemory} {clusters : List (BitVec 32)}

theorem noReadOnly_of_listsEntries (hreads : ∀ off size, disk.succeeds off size = true)
    (hlists : ListsEntries disk heap clusters) :
    NoReadOnly (clusters.flatMap (clusterRecords disk)) := by
  obtain ⟨listing, hlisting, hrde⟩ := @readDirectories_rde disk heap clusters [] hreads
  obtain ⟨listing', hlisting', hrde'⟩ := hlists
  rw [List.map_nil, List.nil_append] at hrde
  have hsame : listing' = listing := by
    rw [readDirectoryEntries, hlisting] at hlisting'
    exact (Option.some.inj hlisting').symm
  rw [hsame, hrde] at hrde'
  intro r hmem hused hlong
  cases hattributes : hasLongFileNameAttributes r with
  | true => rfl
  | false =>
      have hlisted : r ∈ (clusters.flatMap (clusterRecords disk)).filter
          fun r => inUse r && !isLongFileName r := by
        rw [hrde']
        exact List.mem_filter.mpr ⟨hmem, by simp [hused, hattributes]⟩
      have hshort := (List.mem_filter.mp hlisted).2
      simp [hlong] at hshort

theorem listsEntries_iff (hreads : ∀ off size, disk.succeeds off size = true) :
    ListsEntries disk heap clusters ↔ NoReadOnly (clusters.flatMap (clusterRecords disk)) := by
  constructor
  · exact noReadOnly_of_listsEntries hreads
  · intro hnone
    obtain ⟨listing, hlisting, hrde⟩ := @readDirectories_rde disk heap clusters [] hreads
    refine ⟨listing, hlisting, ?_⟩
    rw [hrde]
    refine List.filter_congr fun r hmem => ?_
    cases hused : inUse r with
    | false => rfl
    | true =>
        cases hlong : isLongFileName r with
        | true => rw [hnone r hmem hused hlong]
        | false =>
            cases hattributes : hasLongFileNameAttributes r with
            | false => rfl
            | true =>
                rw [isLongFileName_of_attributes hattributes] at hlong
                contradiction

end Listed

def readOnlyFile : Fat32Partition where
  mbr := ⟨512, 1, 32, 2, 1⟩
  volume := fun i => if i = 1024 then 0x41 else if i = 1024 + 11 then 0x21 else 0
  succeeds := fun _ _ => true

theorem listsEntries_iff_readOnlyFile : ListsEntries readOnlyFile (fun _ => 0) [2] ↔
    NoReadOnly ([2].flatMap (clusterRecords readOnlyFile)) :=
  listsEntries_iff fun _ _ => rfl

theorem readDirectoryEntries_loses_readOnly :
    ¬ ∀ (disk : Fat32Partition) (heap : ByteMemory) (clusters : List (BitVec 32)),
      (∀ off size, disk.succeeds off size = true) → ListsEntries disk heap clusters := by
  intro hall
  have hnone := noReadOnly_of_listsEntries (fun _ _ => rfl)
    (hall readOnlyFile (fun _ => 0) [2] fun _ _ => rfl)
  have hmem : (fun k => readOnlyFile.volume (1024 + (0 * 32 + k.val)) : Record) ∈
      [2].flatMap (clusterRecords readOnlyFile) := by
    rw [List.flatMap_singleton]
    exact List.mem_map.mpr ⟨0, by decide, rfl⟩
  exact absurd (hnone _ hmem (by decide) (by decide)) (by decide)

end UnifiedOS.FileSystem.FAT32
