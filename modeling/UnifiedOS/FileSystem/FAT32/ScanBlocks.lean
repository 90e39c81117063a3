import UnifiedOS.Common.VectorBlocks
import UnifiedOS.FileSystem.FAT32.Directory

/-!
# The heap blocks of a scan

`ScanForEntries` and `ReadDirectoryEntries` obtain blocks for the object they
return, for the buffers they read into and for the entries they build.  Here
each of them takes a ledger along.  The vectors of an object grow in blocks of
their own.
-/

namespace UnifiedOS.FileSystem.FAT32

open UnifiedOS.Foundation UnifiedOS.Common

/-! ## `ScanForEntries` -/

structure FATClusterEntries where
  block : Nat
  entries : List (BitVec 32)
  vector : VectorBlocks

def FATClusterEntries.reachable (clusters : FATClusterEntries) : List Nat :=
  clusters.block :: clusters.vector.blocks

/--
`ScanForEntries`.  After `Sector` nothing is obtained but by `add_back`, once for
each cluster of the list; a division by zero faults.
-/
def scanForEntriesBlocks (disk : Fat32Partition) (heap : ByteMemory) (fuel : Nat)
    (clusterStartNumber : Nat) (l : Ledger) : Option (Option FATClusterEntries × Ledger) :=
  let (clusters, l) := l.malloc
  if disk.mbr.fatEntries = 0 ∨ disk.mbr.sectorsPerCluster = 0 then none
  else
    let (sector, l) := l.malloc
    match scanForEntries disk heap fuel clusterStartNumber with
    | none => none
    | some none => some (none, l)
    | some (some entries) =>
        let (vector, l) := entries.foldl (fun s _ => s.1.addBack s.2) (VectorBlocks.empty, l)
        some (some ⟨clusters, entries, vector⟩, l.free sector)

/-! ## `ReadDirectoryEntries` -/

structure EntryBlocks where
  block : Nat
  lfne : VectorBlocks

def EntryBlocks.reachable (entry : EntryBlocks) : List Nat := entry.block :: entry.lfne.blocks

structure DirectoryEntryListing where
  block : Nat
  directories : List EntryBlocks
  vector : VectorBlocks

def DirectoryEntryListing.reachable (listing : DirectoryEntryListing) : List Nat :=
  listing.block :: listing.vector.blocks ++ listing.directories.flatMap EntryBlocks.reachable

structure Reading where
  entry : EntryBlocks
  returnValue : DirectoryEntryListing
  ledger : Ledger

def newEntry (returnValue : DirectoryEntryListing) (l : Ledger) : Reading :=
  ⟨⟨l.malloc.1, .empty⟩, returnValue, l.malloc.2⟩

def Reading.collect (s : Reading) (r : Record) : Reading :=
  if inUse r then
    if isLongFileName r then
      let (lfne, l) := s.entry.lfne.addBack s.ledger
      { s with entry := { s.entry with lfne := lfne }, ledger := l }
    else
      let (vector, l) := s.returnValue.vector.addBack s.ledger
      newEntry { s.returnValue with
        directories := s.returnValue.directories ++ [s.entry], vector := vector } l
  else s

/-- `Memory::malloc(BytesPerSector * SectorsPerCluster)`, which is a null pointer for no bytes. -/
def mallocData (disk : Fat32Partition) (l : Ledger) : Ledger :=
  if disk.mbr.bytesPerSector.toNat * disk.mbr.sectorsPerCluster.toNat = 0 then l else l.malloc.2

def readDirectoriesBlocks (disk : Fat32Partition) (heap : ByteMemory) :
    List (BitVec 32) → DirectoryEntryListing → Ledger → Option DirectoryEntryListing × Ledger
  | [], returnValue, l => (some returnValue, l)
  | cluster :: clusters, returnValue, l =>
      match readCluster disk heap cluster with
      | none => (none, mallocData disk l)
      | some data =>
          let s := (recordsIn data (recordsPerCluster disk.mbr)).foldl Reading.collect
            (newEntry returnValue (mallocData disk l))
          readDirectoriesBlocks disk heap clusters s.returnValue s.ledger

def readDirectoryEntriesBlocks (disk : Fat32Partition) (heap : ByteMemory)
    (clusters : List (BitVec 32)) (l : Ledger) : Option DirectoryEntryListing × Ledger :=
  readDirectoriesBlocks disk heap clusters ⟨l.malloc.1, [], .empty⟩ l.malloc.2

/-! ## The results are those of the functions -/

section Results

variable {disk : Fat32Partition} {heap : ByteMemory} {fuel start : Nat} {l : Ledger}

theorem scanForEntriesBlocks_entries (hentries : disk.mbr.fatEntries ≠ 0)
    (hsectors : disk.mbr.sectorsPerCluster ≠ 0) :
    (scanForEntriesBlocks disk heap fuel start l).map (fun result =>
        result.1.map FATClusterEntries.entries) = scanForEntries disk heap fuel start := by
  simp only [scanForEntriesBlocks, if_neg (not_or_intro hentries hsectors)]
  cases scanForEntries disk heap fuel start with
  | none => rfl
  | some result => cases result <;> rfl

theorem foldl_collect_length (records : List Record) (s : Collected) (s' : Reading)
    (h : s'.returnValue.directories.length = s.directories.length) :
    (records.foldl Reading.collect s').returnValue.directories.length =
      (records.foldl collect s).directories.length := by
  induction records generalizing s s' with
  | nil => exact h
  | cons r records ih =>
      refine ih _ _ ?_
      unfold Reading.collect collect
      cases inUse r with
      | false => exact h
      | true => cases isLongFileName r <;> simp [newEntry, h]

theorem readDirectoriesBlocks_length (clusters : List (BitVec 32))
    (directories : List DirectoryEntry)
    (returnValue : DirectoryEntryListing) (l : Ledger)
    (h : returnValue.directories.length = directories.length) :
    (readDirectoriesBlocks disk heap clusters returnValue l).1.map (·.directories.length) =
      (readDirectories disk heap clusters directories).map List.length := by
  induction clusters generalizing directories returnValue l with
  | nil => exact congrArg some h
  | cons cluster clusters ih =>
      rw [readDirectoriesBlocks, readDirectories]
      cases readCluster disk heap cluster with
      | none => rfl
      | some data => exact ih _ _ _ (foldl_collect_length _ _ _ h)

end Results

/-! ## What a scan leaves behind -/

section Scan

variable {disk : Fat32Partition} {heap : ByteMemory} {fuel start : Nat} {l l' : Ledger}
  {result : Option FATClusterEntries}

def scanReachable (result : Option FATClusterEntries) : List Nat :=
  result.elim [] FATClusterEntries.reachable

def firstRead (disk : Fat32Partition) (clusterStartNumber : Nat) : Bool :=
  disk.succeeds
    (wrap64 (disk.mbr.bytesPerSector.toNat *
      (Scan.start disk.mbr clusterStartNumber).startSector disk.mbr))
    disk.mbr.bytesPerSector.toNat

theorem scanForEntries_of_firstRead (h : firstRead disk start = true) :
    scanForEntries disk heap fuel start ≠ some none := by
  have hread : ((Scan.start disk.mbr start).readSector disk heap).isSome = true := by
    rw [firstRead] at h
    rw [Scan.readSector, Fat32Partition.read, if_pos h]
    rfl
  obtain ⟨sector, hsector⟩ := Option.isSome_iff_exists.mp hread
  simp [scanForEntries, hsector]

theorem scanForEntries_of_failed (h : firstRead disk start = false) :
    scanForEntries disk heap fuel start = some none := by
  have hread : (Scan.start disk.mbr start).readSector disk heap = none :=
    if_neg (by rw [Bool.not_eq_true]; exact h)
  simp only [scanForEntries, hread]

/-- With its first read the scan returns the list, its vector, and nothing besides. -/
theorem scan_leakFree (hread : firstRead disk start = true)
    (h : scanForEntriesBlocks disk heap fuel start l = some (result, l')) :
    l.LeakFree l' (scanReachable result) := by
  simp only [scanForEntriesBlocks] at h
  split at h
  · contradiction
  split at h
  · contradiction
  · rename_i hfailed
    exact absurd hfailed (scanForEntries_of_firstRead hread)
  · rename_i entries hscan
    obtain ⟨rfl, rfl⟩ := Prod.mk.inj (Option.some.inj h)
    have hstart : VectorBlocks.Holds l [l.next, l.next + 1] .empty l.malloc.2.malloc.2 := by
      refine ⟨by simp only [Ledger.malloc_next]; omega, fun b hb => .inl ?_, fun b hb => ?_⟩
      · rw [Ledger.mem_kept_malloc (Nat.le_succ _), Ledger.mem_kept_malloc (Nat.le_refl _)] at hb
        rcases hb with rfl | rfl | hb
        · exact List.mem_cons_of_mem _ List.mem_cons_self
        · exact List.mem_cons_self
        · exact absurd hb Ledger.kept_self
      · simp only [List.mem_cons, List.not_mem_nil, or_false] at hb
        refine ⟨?_, List.not_mem_nil⟩
        rw [Ledger.mem_live_malloc, Ledger.mem_live_malloc, Ledger.malloc_next]
        tauto
    have hholds := hstart.foldl_addBack entries
    intro b hb
    obtain ⟨hsector, hkept⟩ := Ledger.mem_kept_free.mp hb
    rcases hholds.kept b hkept with hmem | hmem
    · simp only [List.mem_cons, List.not_mem_nil, or_false] at hmem
      rcases hmem with rfl | rfl
      · exact List.mem_cons_self
      · exact absurd rfl hsector
    · exact List.mem_cons_of_mem _ hmem

/-- Without it the list and the buffer of the sector are lost. -/
theorem scan_leaks (hentries : disk.mbr.fatEntries ≠ 0)
    (hsectors : disk.mbr.sectorsPerCluster ≠ 0) (hread : firstRead disk start = false) :
    ∃ l', scanForEntriesBlocks disk heap fuel start l = some (none, l') ∧
      ¬ l.LeakFree l' (scanReachable none) := by
  refine ⟨l.malloc.2.malloc.2, ?_, ?_⟩
  · simp only [scanForEntriesBlocks, if_neg (not_or_intro hentries hsectors),
      scanForEntries_of_failed hread]
  · exact Ledger.not_leakFree (b := l.next) (by simp) (Nat.le_refl _) List.not_mem_nil

end Scan

/-! ## What reading a directory leaves behind -/

section Read

variable {disk : Fat32Partition} {heap : ByteMemory} {clusters : List (BitVec 32)} {l : Ledger}
  {returnValue : DirectoryEntryListing} {s : Reading} {b : Nat}

def listingReachable (result : Option DirectoryEntryListing) : List Nat :=
  result.elim [] DirectoryEntryListing.reachable

/-- A block that the driver has obtained and holds no pointer to. -/
structure Reading.Lost (s : Reading) (b : Nat) : Prop where
  live : b ∈ s.ledger.live
  entry : b ∉ s.entry.reachable
  listing : b ∉ s.returnValue.reachable

theorem not_mem_reachable : b ∉ returnValue.reachable ↔ b ≠ returnValue.block ∧
    b ∉ returnValue.vector.blocks ∧ ∀ entry ∈ returnValue.directories, b ∉ entry.reachable := by
  simp [DirectoryEntryListing.reachable]

theorem lost_newEntry (hlive : b ∈ l.live) (h : b ∉ returnValue.reachable) :
    (newEntry returnValue l).Lost b := by
  refine ⟨Ledger.mem_live_malloc.mpr (.inr hlive), ?_, h⟩
  simp [newEntry, EntryBlocks.reachable, VectorBlocks.blocks, VectorBlocks.empty,
    Ledger.live_ne_next hlive]

theorem Reading.Lost.collect (h : s.Lost b) (r : Record) : (s.collect r).Lost b := by
  obtain ⟨hlive, hentry, hlisting⟩ := h
  unfold Reading.collect
  split
  · rw [EntryBlocks.reachable, List.mem_cons, not_or] at hentry
    split
    · obtain ⟨hlive', hlfne⟩ := VectorBlocks.addBack_apart hlive hentry.2
      refine ⟨hlive', ?_, hlisting⟩
      rw [EntryBlocks.reachable, List.mem_cons, not_or]
      exact ⟨hentry.1, hlfne⟩
    · obtain ⟨hblock, hvector, hdirectories⟩ := not_mem_reachable.mp hlisting
      obtain ⟨hlive', hvector'⟩ := VectorBlocks.addBack_apart hlive hvector
      refine lost_newEntry hlive' (not_mem_reachable.mpr ⟨hblock, hvector', fun entry hmem => ?_⟩)
      rcases List.mem_append.mp hmem with hmem | hmem
      · exact hdirectories entry hmem
      · rw [List.mem_singleton.mp hmem, EntryBlocks.reachable, List.mem_cons, not_or]
        exact hentry
  · exact ⟨hlive, hentry, hlisting⟩

theorem Reading.Lost.foldl (records : List Record) (h : s.Lost b) :
    (records.foldl Reading.collect s).Lost b := by
  induction records generalizing s with
  | nil => exact h
  | cons r records ih => exact ih (h.collect r)

theorem mem_live_mallocData (h : b ∈ l.live) : b ∈ (mallocData disk l).live := by
  unfold mallocData
  split
  · exact h
  · exact Ledger.mem_live_malloc.mpr (.inr h)

theorem readDirectoriesBlocks_lost (hlive : b ∈ l.live) (h : b ∉ returnValue.reachable) :
    b ∈ (readDirectoriesBlocks disk heap clusters returnValue l).2.live ∧
      b ∉ listingReachable (readDirectoriesBlocks disk heap clusters returnValue l).1 := by
  induction clusters generalizing returnValue l with
  | nil => exact ⟨hlive, h⟩
  | cons cluster clusters ih =>
      have hlive' := @mem_live_mallocData disk l b hlive
      rw [readDirectoriesBlocks]
      split
      · exact ⟨hlive', List.not_mem_nil⟩
      · rename_i data hdata
        have hlost := (lost_newEntry hlive' h).foldl (recordsIn data (recordsPerCluster disk.mbr))
        exact ih hlost.live hlost.listing

/-- The first cluster costs a block: its data, or without any the entry begun for it. -/
theorem firstCluster_lost (disk : Fat32Partition) (data : ByteMemory) (l : Ledger) :
    let s := (recordsIn data (recordsPerCluster disk.mbr)).foldl Reading.collect
      (newEntry ⟨l.malloc.1, [], .empty⟩ (mallocData disk l.malloc.2))
    l.next + 1 ∈ s.ledger.live ∧ l.next + 1 ∉ s.returnValue.reachable := by
  have hother : l.next + 1 ∉ DirectoryEntryListing.reachable ⟨l.malloc.1, [], .empty⟩ := by
    simp [DirectoryEntryListing.reachable, VectorBlocks.blocks, VectorBlocks.empty]
  by_cases hsize : disk.mbr.bytesPerSector.toNat * disk.mbr.sectorsPerCluster.toNat = 0
  · have hnone : recordsIn data (recordsPerCluster disk.mbr) = [] := by
      rw [recordsPerCluster, hsize]
      rfl
    rw [hnone, mallocData, if_pos hsize]
    exact ⟨Ledger.mem_live_malloc.mpr (.inl rfl), hother⟩
  · rw [mallocData, if_neg hsize]
    have hdata : l.next + 1 ∈ l.malloc.2.malloc.2.live := Ledger.mem_live_malloc.mpr (.inl rfl)
    have hlost := (lost_newEntry hdata hother).foldl
      (recordsIn data (recordsPerCluster disk.mbr))
    exact ⟨hlost.live, hlost.listing⟩

theorem readDirectoryEntries_leakFree_iff (disk : Fat32Partition) (heap : ByteMemory)
    (clusters : List (BitVec 32)) (l : Ledger) :
    l.LeakFree (readDirectoryEntriesBlocks disk heap clusters l).2
      (listingReachable (readDirectoryEntriesBlocks disk heap clusters l).1) ↔ clusters = [] := by
  constructor
  · intro hfree
    cases clusters with
    | nil => rfl
    | cons cluster clusters =>
        refine absurd hfree ?_
        rw [readDirectoryEntriesBlocks, readDirectoriesBlocks]
        cases readCluster disk heap cluster with
        | none =>
            exact Ledger.not_leakFree (b := l.next) (mem_live_mallocData (by simp))
              (Nat.le_refl _) List.not_mem_nil
        | some data =>
            obtain ⟨hlive, hother⟩ := firstCluster_lost disk data l
            obtain ⟨hlive', hlost⟩ := readDirectoriesBlocks_lost hlive hother
            exact Ledger.not_leakFree hlive' (Nat.le_succ _) hlost
  · rintro rfl b hb
    rcases (Ledger.mem_kept_malloc (Nat.le_refl _)).mp hb with rfl | hb
    · exact List.mem_cons_self
    · exact absurd hb Ledger.kept_self

end Read

/--
`ScanForEntries` gives back what it does not return unless its first read fails;
`ReadDirectoryEntries` does so for no directory that has a cluster.
-/
theorem scan_leakFree_iff (disk : Fat32Partition) (heap : ByteMemory) (clusterStartNumber : Nat)
    (clusters : List (BitVec 32)) :
    ((∀ (fuel : Nat) (l : Ledger) (result : Option FATClusterEntries) (l' : Ledger),
        scanForEntriesBlocks disk heap fuel clusterStartNumber l = some (result, l') →
          l.LeakFree l' (scanReachable result)) ↔
      disk.mbr.fatEntries = 0 ∨ disk.mbr.sectorsPerCluster = 0 ∨
        firstRead disk clusterStartNumber = true) ∧
    ((∀ l : Ledger, l.LeakFree (readDirectoryEntriesBlocks disk heap clusters l).2
        (listingReachable (readDirectoryEntriesBlocks disk heap clusters l).1)) ↔
      clusters = []) := by
  constructor
  · constructor
    · intro hfree
      by_contra hcondition
      simp only [not_or, Bool.not_eq_true] at hcondition
      obtain ⟨hentries, hsectors, hread⟩ := hcondition
      obtain ⟨l', hrun, hleaks⟩ := @scan_leaks disk heap 0 clusterStartNumber
        ⟨0, ∅, nofun⟩ hentries hsectors hread
      exact hleaks (hfree _ _ _ _ hrun)
    · rintro hcondition fuel l result l' hrun
      rcases hcondition with hentries | hsectors | hread
      · simp [scanForEntriesBlocks, hentries] at hrun
      · simp [scanForEntriesBlocks, hsectors] at hrun
      · exact scan_leakFree hread hrun
  · constructor
    · intro hfree
      exact (readDirectoryEntries_leakFree_iff disk heap clusters ⟨0, ∅, nofun⟩).mp (hfree _)
    · intro hnone l
      exact (readDirectoryEntries_leakFree_iff disk heap clusters l).mpr hnone

/-- Listing one cluster loses its data and an entry. -/
theorem readDirectoryEntries_loses_data :
    ¬ ((∀ (disk : Fat32Partition) (heap : ByteMemory) (fuel clusterStartNumber : Nat) (l : Ledger)
        (result : Option FATClusterEntries) (l' : Ledger),
        scanForEntriesBlocks disk heap fuel clusterStartNumber l = some (result, l') →
          l.LeakFree l' (scanReachable result)) ∧
      ∀ (disk : Fat32Partition) (heap : ByteMemory) (clusters : List (BitVec 32)) (l : Ledger),
        l.LeakFree (readDirectoryEntriesBlocks disk heap clusters l).2
          (listingReachable (readDirectoryEntriesBlocks disk heap clusters l).1)) := by
  rintro ⟨-, hall⟩
  have hfree := hall readOnlyFile (fun _ => 0) [2] ⟨0, ∅, nofun⟩
  exact absurd ((readDirectoryEntries_leakFree_iff _ _ _ _).mp hfree) (List.cons_ne_nil _ _)

end UnifiedOS.FileSystem.FAT32
