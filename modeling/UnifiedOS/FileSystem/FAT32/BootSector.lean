import UnifiedOS.FileSystem.PartitionType
import UnifiedOS.FileSystem.FAT32.FATPartition

/-!
# Mounting a FAT32 partition

`GPTCreatePartition` looks at the type of an entry and at eight bytes of its boot
sector, and takes every other field of the sector as it is.  The constructor of
the partition then reads the root directory and takes the name of the partition
from the first entry.
-/

namespace UnifiedOS.FileSystem.FAT32

open UnifiedOS.Foundation
open GPT

def FAT32MBR.ofMemory (bootSector : ByteMemory) : FAT32MBR where
  bytesPerSector := BitVec.ofNat 16 (bootSector.load 11 2)
  sectorsPerCluster := bootSector 13
  reservedSectors := BitVec.ofNat 16 (bootSector.load 14 2)
  numberOfFATs := bootSector 16
  sectorsPerFAT := BitVec.ofNat 32 (bootSector.load 36 4)

structure PartitionFlags where
  hidden : Bool
  autoMount : Bool
  readOnly : Bool

def PartitionFlags.ofEntry (entry : GPTPartitonEntry) : PartitionFlags where
  hidden := entry.flags >>> 62 == 1
  autoMount := !(entry.flags >>> 63 == 1)
  readOnly := entry.flags >>> 60 == 1

structure CreatedPartition where
  disk : Fat32Partition
  flags : PartitionFlags

/-- `GPTCreatePartition`, with the buffer that it reads the boot sector into. -/
def gptCreatePartition (entry : GPTPartitonEntry) (bootSector volume : ByteMemory)
    (succeeds : Nat → Nat → Bool) : Option CreatedPartition :=
  match (GUID.ofBytes entry.typeGUID).getGUIDType with
  | .basicDataParititon =>
      if get8Byte bootSector 82 = 0x4641543332202020#64 then
        some ⟨⟨.ofMemory bootSector, volume, succeeds⟩, .ofEntry entry⟩
      else none
  | _ => none

theorem gptCreatePartition_disk {entry : GPTPartitonEntry} {bootSector volume : ByteMemory}
    {succeeds : Nat → Nat → Bool} {created : CreatedPartition}
    (h : gptCreatePartition entry bootSector volume succeeds = some created) :
    created.disk = ⟨.ofMemory bootSector, volume, succeeds⟩ := by
  unfold gptCreatePartition at h
  split at h
  · split at h
    · rw [← Option.some.inj h]
    · contradiction
  · contradiction

/-! ## The divisors of a scan -/

def scanLoopDivisors (disk : Fat32Partition) (s : Scan) :
    Nat → ByteMemory → Nat → BitVec 32 → List Nat
  | 0, _, _, _ => []
  | fuel + 1, sector, prevSector, currentEntry =>
      if currentEntry = 0xFFFFFF#32 then []
      else
        let newSector := s.newSector disk.mbr
        let sector := if newSector ≠ prevSector then
          (s.readSector disk sector).getD sector else sector
        let currentEntryPos :=
          (currentEntry + BitVec.ofNat 32 s.clusterAddition).toNat % disk.mbr.fatEntries
        -- for `add_back`, `NewSector` and `CurrentEntryPos`
        disk.mbr.sectorsPerCluster.toNat :: disk.mbr.fatEntries :: disk.mbr.fatEntries ::
          scanLoopDivisors disk s fuel sector newSector (entryAt sector currentEntryPos)

/--
What `ScanForEntries` divides by, in order, other than 4.  The driver faults at
the first zero; the list goes on.
-/
def scanDivisors (disk : Fat32Partition) (heap : ByteMemory) (fuel : Nat)
    (clusterStartNumber : Nat) : List Nat :=
  let s := Scan.start disk.mbr clusterStartNumber
  -- for `IsFat2`, and twice for `StartSector`
  disk.mbr.fatEntries :: disk.mbr.fatEntries :: disk.mbr.sectorsPerCluster.toNat ::
    match s.readSector disk heap with
    | none => []
    | some sector =>
        let currentEntryPos :=
          wrap64 (s.clusterStartNumber + s.clusterAddition) % disk.mbr.fatEntries
        disk.mbr.fatEntries :: disk.mbr.sectorsPerCluster.toNat ::
          scanLoopDivisors disk s fuel sector (s.startSector disk.mbr)
            (entryAt sector currentEntryPos)

section Divisors

variable {disk : Fat32Partition} {heap : ByteMemory} {fuel start : Nat}

theorem length_scanLoopDivisors {s : Scan} {sector : ByteMemory} {prevSector : Nat}
    {currentEntry : BitVec 32} {clusters : List (BitVec 32)}
    (h : scanLoop disk s fuel sector prevSector currentEntry = some clusters) :
    (scanLoopDivisors disk s fuel sector prevSector currentEntry).length =
      3 * clusters.length := by
  induction fuel generalizing sector prevSector currentEntry clusters with
  | zero => contradiction
  | succ fuel ih =>
      simp only [scanLoop] at h
      simp only [scanLoopDivisors]
      split at h
      · rename_i hend
        rw [if_pos hend, ← Option.some.inj h]
        rfl
      · rename_i hend
        obtain ⟨rest, hrest, rfl⟩ := Option.map_eq_some_iff.mp h
        rw [if_neg hend, List.length_cons, List.length_cons, List.length_cons, ih hrest,
          List.length_cons]
        ring

theorem length_scanDivisors {clusters : List (BitVec 32)}
    (h : scanForEntries disk heap fuel start = some (some clusters)) :
    (scanDivisors disk heap fuel start).length = 3 * clusters.length + 2 := by
  unfold scanForEntries at h
  unfold scanDivisors
  dsimp only at h ⊢
  cases hsector : (Scan.start disk.mbr start).readSector disk heap with
  | none => simp [hsector] at h
  | some sector =>
      simp only [hsector] at h ⊢
      obtain ⟨rest, hrest, heq⟩ := Option.map_eq_some_iff.mp h
      rw [← Option.some.inj heq]
      simp only [List.length_cons, length_scanLoopDivisors hrest]
      ring

theorem mem_scanLoopDivisors {s : Scan} {sector : ByteMemory} {prevSector d : Nat}
    {currentEntry : BitVec 32}
    (h : d ∈ scanLoopDivisors disk s fuel sector prevSector currentEntry) :
    d = disk.mbr.fatEntries ∨ d = disk.mbr.sectorsPerCluster.toNat := by
  induction fuel generalizing sector prevSector currentEntry with
  | zero => contradiction
  | succ fuel ih =>
      simp only [scanLoopDivisors] at h
      split at h
      · contradiction
      · simp only [List.mem_cons] at h
        rcases h with rfl | rfl | rfl | h
        · exact .inr rfl
        · exact .inl rfl
        · exact .inl rfl
        · exact ih h

theorem mem_scanDivisors {d : Nat} :
    d ∈ scanDivisors disk heap fuel start ↔
      d = disk.mbr.fatEntries ∨ d = disk.mbr.sectorsPerCluster.toNat := by
  constructor
  · intro h
    simp only [scanDivisors, List.mem_cons] at h
    rcases h with rfl | rfl | rfl | h
    · exact .inl rfl
    · exact .inl rfl
    · exact .inr rfl
    split at h
    · contradiction
    · simp only [List.mem_cons] at h
      rcases h with rfl | rfl | h
      · exact .inl rfl
      · exact .inr rfl
      · exact mem_scanLoopDivisors h
  · rintro (rfl | rfl) <;> simp [scanDivisors]

end Divisors

/-- The divisors are the product of two fields, as far as it fits, and a third field. -/
theorem divisors_nonzero_iff {entry : GPTPartitonEntry} {bootSector volume : ByteMemory}
    {succeeds : Nat → Nat → Bool} {created : CreatedPartition}
    (hcreated : gptCreatePartition entry bootSector volume succeeds = some created)
    (heap : ByteMemory) (fuel clusterStartNumber : Nat) :
    (∀ d ∈ scanDivisors created.disk heap fuel clusterStartNumber, d ≠ 0) ↔
      4 ≤ (FAT32MBR.ofMemory bootSector).sectorsPerFAT.toNat *
          (FAT32MBR.ofMemory bootSector).bytesPerSector.toNat % 2 ^ 32 ∧
        (FAT32MBR.ofMemory bootSector).sectorsPerCluster ≠ 0 := by
  have hsectors : (FAT32MBR.ofMemory bootSector).sectorsPerCluster.toNat ≠ 0 ↔
      (FAT32MBR.ofMemory bootSector).sectorsPerCluster ≠ 0 :=
    not_congr (BitVec.toNat_inj (y := 0))
  have hentries : (FAT32MBR.ofMemory bootSector).fatEntries ≠ 0 ↔
      4 ≤ (FAT32MBR.ofMemory bootSector).sectorsPerFAT.toNat *
        (FAT32MBR.ofMemory bootSector).bytesPerSector.toNat % 2 ^ 32 := by
    rw [FAT32MBR.fatEntries]
    omega
  rw [gptCreatePartition_disk hcreated, ← hsectors, ← hentries]
  constructor
  · intro h
    exact ⟨h _ (mem_scanDivisors.mpr (.inl rfl)), h _ (mem_scanDivisors.mpr (.inr rfl))⟩
  · rintro ⟨hentries, hsectors⟩ d hd
    rcases mem_scanDivisors.mp hd with rfl | rfl
    · exact hentries
    · exact hsectors

/-! ## The name of the partition -/

structure NameRead where
  /-- The indices at which it uses `RootDirectory->Directories`. -/
  indices : List Nat
  directories : Nat
  partitionName : Option (List Byte)

/--
The rest of the constructor.  There is no result where `ScanForEntries` divides
by zero or does not end; `outside` is what lies at index 0 of an empty vector.
-/
def readPartitionName (disk : Fat32Partition) (heap : Nat → ByteMemory) (fuel : Nat)
    (outside : DirectoryEntry) : Option NameRead :=
  if disk.mbr.fatEntries = 0 ∨ disk.mbr.sectorsPerCluster = 0 then none
  else
    (readDirectory disk heap fuel 0).map fun rootDirectory =>
      match rootDirectory with
      | none => ⟨[], 0, none⟩
      | some directories =>
          let first := directories.getD 0 outside
          if first.lfne.length > 0 then ⟨[0], directories.length, none⟩
          else ⟨[0, 0], directories.length, some (List.ofFn first.rde.fileName)⟩

section Names

variable {disk : Fat32Partition} {heap : Nat → ByteMemory} {fuel : Nat} {outside : DirectoryEntry}
  {clusters : List (BitVec 32)}

/-- Whatever the first entry is, index 0 is used. -/
theorem readPartitionName_listed {directories : List DirectoryEntry}
    (hentries : disk.mbr.fatEntries ≠ 0) (hsectors : disk.mbr.sectorsPerCluster ≠ 0)
    (hlisted : readDirectory disk heap fuel 0 = some (some directories)) :
    ∃ named, readPartitionName disk heap fuel outside = some named ∧
      named.directories = directories.length ∧ ∀ i, i ∈ named.indices ↔ i = 0 := by
  rw [readPartitionName, if_neg (not_or_intro hentries hsectors), hlisted, Option.map_some]
  dsimp only
  split
  · exact ⟨_, rfl, rfl, fun i => List.mem_singleton⟩
  · exact ⟨_, rfl, rfl, fun i => by simp⟩

theorem listing_pos_iff (hreads : ∀ off size, disk.succeeds off size = true) :
    ∃ directories, readDirectoryEntries disk (heap 1) clusters = some directories ∧
      (0 < directories.length ↔ ∃ r ∈ clusters.flatMap (clusterRecords disk),
        inUse r = true ∧ isLongFileName r = false) := by
  obtain ⟨directories, hlisting, hrde⟩ := @readDirectories_rde disk (heap 1) clusters [] hreads
  refine ⟨directories, hlisting, ?_⟩
  have hlength := congrArg List.length hrde
  rw [List.length_map, List.map_nil, List.nil_append] at hlength
  rw [hlength, List.length_pos_iff_exists_mem]
  simp

theorem readDirectory_eq_some_iff {directories : List DirectoryEntry} :
    readDirectory disk heap fuel 0 = some (some directories) ↔
      ∃ clusters, scanForEntries disk (heap 0) fuel 0 = some (some clusters) ∧
        readDirectoryEntries disk (heap 1) clusters = some directories := by
  rw [readDirectory]
  change (scanForEntries disk (heap 0) fuel 0).map _ = _ ↔ _
  rw [Option.map_eq_some_iff]
  constructor
  · rintro ⟨scanned, hscan, hbind⟩
    obtain ⟨clusters, rfl, hlisting⟩ := Option.bind_eq_some_iff.mp hbind
    exact ⟨clusters, hscan, hlisting⟩
  · rintro ⟨clusters, hscan, hlisting⟩
    exact ⟨some clusters, hscan, hlisting⟩

/-- A constructor that gets through divided by no zero, and uses index 0 of what it listed. -/
theorem readPartitionName_uses {named : NameRead} {i : Nat}
    (hnamed : readPartitionName disk heap fuel outside = some named) (hi : i ∈ named.indices) :
    disk.mbr.fatEntries ≠ 0 ∧ disk.mbr.sectorsPerCluster ≠ 0 ∧ i = 0 ∧
      ∃ directories, readDirectory disk heap fuel 0 = some (some directories) ∧
        named.directories = directories.length := by
  have hdivisors : ¬ (disk.mbr.fatEntries = 0 ∨ disk.mbr.sectorsPerCluster = 0) := by
    intro hzero
    rw [readPartitionName, if_pos hzero] at hnamed
    contradiction
  obtain ⟨hentries, hsectors⟩ := not_or.mp hdivisors
  have hrun := hnamed
  rw [readPartitionName, if_neg hdivisors] at hrun
  obtain ⟨rootDirectory, hroot, hnothing⟩ := Option.map_eq_some_iff.mp hrun
  cases rootDirectory with
  | none =>
      rw [← hnothing] at hi
      contradiction
  | some directories =>
      obtain ⟨named', hnamed', hlength, hindices⟩ :=
        @readPartitionName_listed disk heap fuel outside directories hentries hsectors hroot
      obtain rfl : named' = named := Option.some.inj (hnamed'.symm.trans hnamed)
      exact ⟨hentries, hsectors, (hindices i).mp hi, directories, hroot, hlength⟩

end Names

/--
The constructor uses entry 0 of every root directory it lists, and stays inside
the listing where the clusters of the root hold a short entry in use.
-/
theorem directories_indexed_iff {entry : GPTPartitonEntry} {bootSector volume : ByteMemory}
    {succeeds : Nat → Nat → Bool} {created : CreatedPartition}
    (hcreated : gptCreatePartition entry bootSector volume succeeds = some created)
    (hreads : ∀ off size, succeeds off size = true) (heap : Nat → ByteMemory)
    (outside : DirectoryEntry) :
    (∀ fuel named, readPartitionName created.disk heap fuel outside = some named →
        ∀ i ∈ named.indices, i < named.directories) ↔
      created.disk.mbr.fatEntries = 0 ∨ created.disk.mbr.sectorsPerCluster = 0 ∨
        ∀ fuel clusters, scanForEntries created.disk (heap 0) fuel 0 = some (some clusters) →
          ∃ r ∈ clusters.flatMap (clusterRecords created.disk),
            inUse r = true ∧ isLongFileName r = false := by
  have hreads : ∀ off size, created.disk.succeeds off size = true := by
    rw [gptCreatePartition_disk hcreated]
    exact hreads
  generalize created.disk = disk at hreads ⊢
  constructor
  · intro hinside
    by_cases hentries : disk.mbr.fatEntries = 0
    · exact .inl hentries
    by_cases hsectors : disk.mbr.sectorsPerCluster = 0
    · exact .inr (.inl hsectors)
    refine .inr (.inr fun fuel clusters hscan => ?_)
    obtain ⟨directories, hlisting, hpos⟩ := @listing_pos_iff disk heap clusters hreads
    have hroot := readDirectory_eq_some_iff.mpr ⟨clusters, hscan, hlisting⟩
    obtain ⟨named, hnamed, hlength, hindices⟩ :=
      @readPartitionName_listed disk heap fuel outside directories hentries hsectors hroot
    have hzero := hinside fuel named hnamed 0 ((hindices 0).mpr rfl)
    exact hpos.mp (hlength ▸ hzero)
  · intro hcondition fuel named hnamed i hi
    obtain ⟨hentries, hsectors, rfl, directories, hroot, hlength⟩ :=
      readPartitionName_uses hnamed hi
    obtain ⟨clusters, hscan, hlisting⟩ := readDirectory_eq_some_iff.mp hroot
    obtain ⟨listed, hlisted, hpos⟩ := @listing_pos_iff disk heap clusters hreads
    obtain rfl : listed = directories := Option.some.inj (hlisted.symm.trans hlisting)
    have hshort := (hcondition.resolve_left hentries).resolve_left hsectors fuel clusters hscan
    rw [hlength]
    exact hpos.mpr hshort

def basicDataEntry : GPTPartitonEntry := ⟨basicDataGUID, [], 0, 63, 0, []⟩

def fileSystemLabel (i : Nat) : Byte :=
  [0x46, 0x41, 0x54, 0x33, 0x32, 0x20, 0x20, 0x20].getD (i - 82) 0

theorem gptCreatePartition_basicData {bootSector volume : ByteMemory}
    {succeeds : Nat → Nat → Bool} (h : get8Byte bootSector 82 = 0x4641543332202020#64) :
    gptCreatePartition basicDataEntry bootSector volume succeeds =
      some ⟨⟨.ofMemory bootSector, volume, succeeds⟩, .ofEntry basicDataEntry⟩ := by
  have htype : (GUID.ofBytes basicDataEntry.typeGUID).getGUIDType = .basicDataParititon :=
    getGUIDType_basicData
  rw [gptCreatePartition, htype]
  exact if_pos h

def labelOnly : ByteMemory := fun i => if 82 ≤ i then fileSystemLabel i else 0

theorem divisors_nonzero_iff_labelOnly :
    (∀ d ∈ scanDivisors ⟨.ofMemory labelOnly, labelOnly, fun _ _ => true⟩ (fun _ => 0) 0 2,
        d ≠ 0) ↔
      4 ≤ (FAT32MBR.ofMemory labelOnly).sectorsPerFAT.toNat *
          (FAT32MBR.ofMemory labelOnly).bytesPerSector.toNat % 2 ^ 32 ∧
        (FAT32MBR.ofMemory labelOnly).sectorsPerCluster ≠ 0 :=
  divisors_nonzero_iff (@gptCreatePartition_basicData labelOnly _ _ (by decide))
    (fun _ => 0) 0 2

/-- It is accepted, and the scan for the root directory divides by zero. -/
theorem scanForEntries_divides_by_zero :
    ¬ ∀ (entry : GPTPartitonEntry) (bootSector volume : ByteMemory)
      (succeeds : Nat → Nat → Bool) (created : CreatedPartition) (heap : ByteMemory)
      (fuel clusterStartNumber : Nat),
      gptCreatePartition entry bootSector volume succeeds = some created →
        ∀ d ∈ scanDivisors created.disk heap fuel clusterStartNumber, d ≠ 0 := by
  intro hall
  exact hall basicDataEntry labelOnly labelOnly (fun _ _ => true) _ (fun _ => 0) 0 0
    (gptCreatePartition_basicData (by decide)) 0 (by decide) rfl

/-- A volume of 512-byte sectors with one table of one sector and an empty root directory. -/
def freshVolume : ByteMemory := fun i =>
  if 82 ≤ i ∧ i < 90 then fileSystemLabel i
  else if i = 12 then 2
  else if i = 13 ∨ i = 14 ∨ i = 16 ∨ i = 36 then 1
  else if 520 ≤ i ∧ i < 524 then 0xFF
  else 0

theorem directories_indexed_iff_freshVolume :
    (∀ fuel named, readPartitionName ⟨.ofMemory freshVolume, freshVolume, fun _ _ => true⟩
        (fun _ _ => 0) fuel ⟨fun _ => 0, []⟩ = some named →
          ∀ i ∈ named.indices, i < named.directories) ↔
      (FAT32MBR.ofMemory freshVolume).fatEntries = 0 ∨
        (FAT32MBR.ofMemory freshVolume).sectorsPerCluster = 0 ∨
          ∀ fuel clusters, scanForEntries ⟨.ofMemory freshVolume, freshVolume, fun _ _ => true⟩
            (fun _ => 0) fuel 0 = some (some clusters) →
              ∃ r ∈ clusters.flatMap
                  (clusterRecords ⟨.ofMemory freshVolume, freshVolume, fun _ _ => true⟩),
                inUse r = true ∧ isLongFileName r = false :=
  directories_indexed_iff
    (@gptCreatePartition_basicData freshVolume _ _ (by decide)) (fun _ _ => rfl)
    (fun _ _ => 0) ⟨fun _ => 0, []⟩

/-- Mounting it uses entry 0 of a listing without entries. -/
theorem constructor_indexes_empty :
    ¬ ∀ (entry : GPTPartitonEntry) (bootSector volume : ByteMemory)
      (succeeds : Nat → Nat → Bool) (created : CreatedPartition) (heap : Nat → ByteMemory)
      (outside : DirectoryEntry),
      gptCreatePartition entry bootSector volume succeeds = some created →
        (∀ off size, succeeds off size = true) →
          ∀ fuel named, readPartitionName created.disk heap fuel outside = some named →
            ∀ i ∈ named.indices, i < named.directories := by
  intro hall
  have hempty : (readDirectory ⟨.ofMemory freshVolume, freshVolume, fun _ _ => true⟩
      (fun _ _ => 0) 1 0).map (·.map List.length) = some (some 0) := by
    decide +kernel
  obtain ⟨listing, hlisted, hlength⟩ := Option.map_eq_some_iff.mp hempty
  obtain ⟨directories, rfl, hzero⟩ := Option.map_eq_some_iff.mp hlength
  obtain ⟨named, hnamed, hdirectories, hindices⟩ :=
    @readPartitionName_listed _ _ _ ⟨fun _ => 0, []⟩ _ (by decide) (by decide) hlisted
  have hinside := hall basicDataEntry freshVolume freshVolume (fun _ _ => true) _ (fun _ _ => 0)
    ⟨fun _ => 0, []⟩ (gptCreatePartition_basicData (by decide)) (fun _ _ => rfl) 1 named hnamed 0
    ((hindices 0).mpr rfl)
  rw [hdirectories, hzero] at hinside
  contradiction

end UnifiedOS.FileSystem.FAT32
