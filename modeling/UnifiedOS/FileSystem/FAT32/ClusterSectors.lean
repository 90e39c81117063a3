import UnifiedOS.FileSystem.FAT32.PathResolution

/-!
# The sectors of a cluster, and the clusters of an entry

`ScanForEntries` adds the start of the data area, divided by the size of a
cluster, to the number of a cluster; `ReadDirectoryEntries` and `ResolveFile`
multiply the sum by that size.  The remainder is lost.  `ResolveFile` puts the
number of a first cluster together from two halves and keeps the lower one.
-/

namespace UnifiedOS.FileSystem.FAT32

open UnifiedOS.Foundation

namespace FAT32MBR

def dataSector (mbr : FAT32MBR) : Nat :=
  mbr.reservedSectors.toNat + mbr.numberOfFATs.toNat * mbr.sectorsPerFAT.toNat

def clusterSector (mbr : FAT32MBR) (cluster : Nat) : Nat :=
  mbr.dataSector + (cluster - 2) * mbr.sectorsPerCluster.toNat

end FAT32MBR

/--
The scan divides by a number of entries, and the first entry of its list stands
for the sectors of `cluster`, as a directory is read and as a file is returned.
-/
structure Translates (mbr : FAT32MBR) (cluster : Nat) (clusters : List (BitVec 32)) : Prop where
  divides : mbr.fatEntries ≠ 0
  listing : ∃ entry ∈ clusters.head?,
    (entry * mbr.sectorsPerCluster.setWidth 32).toNat = mbr.clusterSector cluster
  file : ∃ sector ∈ (sectorsOf mbr clusters).head?, sector.toNat = mbr.clusterSector cluster

section Sectors

variable {disk : Fat32Partition} {mbr : FAT32MBR} {heap : ByteMemory} {fuel cluster : Nat}
  {clusters : List (BitVec 32)}

theorem sectorsOf_head {entry : BitVec 32} (hspc : 1 ≤ mbr.sectorsPerCluster.toNat) :
    (sectorsOf mbr (entry :: clusters)).head? =
      some ((entry * mbr.sectorsPerCluster.setWidth 32).setWidth 64) := by
  obtain ⟨n, hn⟩ := Nat.exists_eq_add_of_le' hspc
  simp [sectorsOf, hn, List.range_succ_eq_map]

theorem translates_cons {entry : BitVec 32} (hspc : 1 ≤ mbr.sectorsPerCluster.toNat) :
    Translates mbr cluster (entry :: clusters) ↔ mbr.fatEntries ≠ 0 ∧
      (entry * mbr.sectorsPerCluster.setWidth 32).toNat = mbr.clusterSector cluster := by
  have hwidth : ((entry * mbr.sectorsPerCluster.setWidth 32).setWidth 64).toNat =
      (entry * mbr.sectorsPerCluster.setWidth 32).toNat := by
    have hlt := (entry * mbr.sectorsPerCluster.setWidth 32).isLt
    rw [BitVec.toNat_setWidth, Nat.mod_eq_of_lt (by omega)]
  constructor
  · rintro ⟨hdivides, ⟨entry', hentry', heq⟩, -⟩
    cases Option.some.inj hentry'
    exact ⟨hdivides, heq⟩
  · rintro ⟨hdivides, heq⟩
    exact ⟨hdivides, ⟨entry, rfl, heq⟩, _, sectorsOf_head hspc, hwidth.trans heq⟩

/-- The table of 512-byte sectors has 128 entries in each, up to where the product wraps. -/
theorem fatEntries_512 (hbytes : mbr.bytesPerSector = 512) :
    mbr.fatEntries = mbr.sectorsPerFAT.toNat % 2 ^ 23 * 128 := by
  have h512 : BitVec.toNat (512 : BitVec 16) = 512 := rfl
  rw [FAT32MBR.fatEntries, hbytes, h512]
  omega

theorem dataClusters_eq (hdata : mbr.dataSector < 2 ^ 32) :
    mbr.dataClusters = mbr.dataSector / mbr.sectorsPerCluster.toNat := by
  rw [FAT32MBR.dataClusters, Nat.mul_comm mbr.sectorsPerFAT.toNat]
  exact congrArg (· / _) (Nat.mod_eq_of_lt hdata)

theorem ofNat_sub_add {a b e : Nat} (hle : b ≤ a + e) (hb : b < 2 ^ 32) :
    BitVec.ofNat 32 a - BitVec.ofNat 32 b + BitVec.ofNat 32 e = BitVec.ofNat 32 (a + e - b) := by
  rw [← BitVec.ofNat_sub_ofNat_of_le (a + e) b hb hle, BitVec.ofNat_add]
  grind

theorem firstEntry_eq (hbytes : mbr.bytesPerSector = 512) (hentries : mbr.fatEntries ≠ 0)
    (hlo : 2 ≤ cluster) (hhi : cluster < mbr.sectorsPerFAT.toNat * 128) :
    ∃ n ≤ cluster - 2, (n = cluster - 2 ↔ cluster + 2 < 2 * mbr.fatEntries) ∧
      firstEntry mbr cluster = BitVec.ofNat 32 (n + mbr.dataClusters) := by
  have hfat := fatEntries_512 hbytes
  have hfats := mbr.sectorsPerFAT.isLt
  simp only [firstEntry, Scan.start, Scan.firstPos, Scan.represent, if_neg (Nat.not_lt.mpr hlo),
    Nat.sub_add_cancel hlo]
  generalize mbr.fatEntries = entries at hentries hfat ⊢
  by_cases hin : cluster < entries
  · refine ⟨cluster - 2, Nat.le_refl _, iff_of_true rfl (by omega), ?_⟩
    have hpos : wrap64 (cluster - 2 + 2) % entries = cluster := by
      rw [Nat.sub_add_cancel hlo, wrap64_of_lt (by omega), Nat.mod_eq_of_lt hin]
    simp only [Nat.div_eq_of_lt hin, ne_eq, not_true_eq_false, if_false, Bool.false_eq_true, hpos]
    rw [BitVec.ofNat_eq_ofNat, BitVec.add_zero, ofNat_sub_add (by omega) (by decide)]
    exact congrArg (BitVec.ofNat 32) (by omega)
  · have hquot : cluster / entries ≠ 0 := by
      rw [Nat.div_ne_zero_iff]
      omega
    have hpos : wrap64 (cluster - 2 + 4) = cluster + 2 := by
      rw [wrap64_of_lt (by omega)]
      omega
    have hmod : (cluster + 2) % entries = (cluster + 2 - entries) % entries :=
      Nat.mod_eq_sub_mod (by omega)
    have hle := Nat.mod_le (cluster + 2 - entries) entries
    have hlt := Nat.mod_lt (cluster + 2 - entries) (Nat.pos_of_ne_zero hentries)
    simp only [if_pos hquot, if_true, hpos, hmod]
    refine ⟨(cluster + 2 - entries) % entries + entries - 4, by omega, ?_, ?_⟩
    · constructor
      · intro heq
        omega
      · intro hinside
        rw [Nat.mod_eq_of_lt (by omega)]
        omega
    · rw [ofNat_sub_add (by omega) (by decide), BitVec.ofNat_add]

/--
The sectors are those of the cluster when the data area begins at a multiple of
the size of a cluster, and the table is no longer than the driver takes it for.
-/
theorem translates_iff (hbytes : disk.mbr.bytesPerSector = 512)
    (hspc : 1 ≤ disk.mbr.sectorsPerCluster.toNat) (hlo : 2 ≤ cluster)
    (hhi : cluster < disk.mbr.sectorsPerFAT.toNat * 128)
    (hsector : disk.mbr.clusterSector cluster < 2 ^ 32)
    (hscan : scanForEntries disk heap fuel cluster = some (some clusters)) :
    Translates disk.mbr cluster clusters ↔
      disk.mbr.sectorsPerCluster.toNat ∣ disk.mbr.dataSector ∧
        cluster + 2 < 2 * disk.mbr.fatEntries := by
  obtain ⟨rest, rfl⟩ := scanForEntries_head hscan
  rw [translates_cons hspc]
  by_cases hentries : disk.mbr.fatEntries = 0
  · exact iff_of_false (fun h => h.1 hentries) (by omega)
  obtain ⟨n, hle, hindex, hfirst⟩ := firstEntry_eq hbytes hentries hlo hhi
  rw [FAT32MBR.clusterSector] at hsector ⊢
  rw [and_iff_right hentries, hfirst, dataClusters_eq (by omega), ← hindex]
  have hwidth : (disk.mbr.sectorsPerCluster.setWidth 32).toNat =
      disk.mbr.sectorsPerCluster.toNat := by
    have hlt := disk.mbr.sectorsPerCluster.isLt
    rw [BitVec.toNat_setWidth, Nat.mod_eq_of_lt (by omega)]
  rw [BitVec.toNat_mul, BitVec.toNat_ofNat, Nat.mod_mul_mod, hwidth]
  generalize disk.mbr.sectorsPerCluster.toNat = size at hspc hsector ⊢
  generalize disk.mbr.dataSector = start at hsector ⊢
  -- what is lost is the remainder of the one and the difference of the other
  have hlost : start / size * size ≤ start := Nat.div_mul_le_self start size
  have hearlier : n * size ≤ (cluster - 2) * size := Nat.mul_le_mul_right size hle
  rw [Nat.add_mul, Nat.mod_eq_of_lt (by omega)]
  constructor
  · intro heq
    have hexact : start / size * size = start := by omega
    have hsame : n * size = (cluster - 2) * size := by omega
    exact ⟨Dvd.intro_left _ hexact, Nat.eq_of_mul_eq_mul_right hspc hsame⟩
  · rintro ⟨hdvd, rfl⟩
    rw [Nat.div_mul_cancel hdvd, Nat.add_comm]

end Sectors

/-- A one-sector table, in which cluster 3 is a file of its own, before the data in sector 34. -/
def oneClusterFile (sectorsPerCluster : BitVec 8) : Fat32Partition where
  mbr := ⟨512, sectorsPerCluster, 32, 2, 1⟩
  volume := ByteMemory.store (fun _ => 0) (0x4000 + 3 * 4) 4 0x0FFFFFFF
  succeeds := fun _ _ => true

theorem translates_iff_twoSectors :
    Translates (oneClusterFile 2).mbr 3 [18] ↔ 2 ∣ (oneClusterFile 2).mbr.dataSector ∧
      3 + 2 < 2 * (oneClusterFile 2).mbr.fatEntries :=
  @translates_iff (oneClusterFile 2) (fun _ => 0) 1 3 [18] rfl (by decide) (by decide) (by decide)
    (by decide) (by decide +kernel)

/-- With clusters of eight sectors the file is read from sector 40, where it begins at 42. -/
theorem scanForEntries_loses_remainder :
    scanForEntries (oneClusterFile 8) (fun _ => 0) 1 3 = some (some [5]) ∧
      ¬ Translates (oneClusterFile 8).mbr 3 [5] := by
  refine ⟨by decide +kernel, fun h => ?_⟩
  have heq := ((translates_cons (by decide)).mp h).2
  revert heq
  decide

/-! ## The cluster of an entry -/

structure Selection where
  entry : DirectoryEntry
  cluster : BitVec 32

def RootDirectoryEntry.firstClusterNumber (r : RootDirectoryEntry) : Nat :=
  r.high2BytesOfAddressOfFirstCluster.toNat * 65536 + r.low2BytesOfAddressOfFirstCluster.toNat

def Selection.Decoded (selection : Selection) : Prop :=
  selection.cluster.toNat = selection.entry.rde.firstClusterNumber

def Search.selected (s : Search) (heap : Nat → ByteMemory) :
    Nat → List DirectoryEntry → Option DirectoryEntry
  | _, [] => none
  | i, entry :: entries =>
      if s.correctEntry (heap (i + 2)) entry then
        some ((s.selected heap (i + 1) entries).getD entry)
      else s.selected heap (i + 1) entries

/-- `resolveLevels`, with what it selects on the way. -/
def traceLevels (disk : Fat32Partition) (heap : Nat → Nat → ByteMemory) (fuel : Nat)
    (path : List Byte) (subdirectories : Nat) :
    List Nat → Nat → Nat → BitVec 32 → Option GeneralFile × List Selection
  | [], _, _, _ => (some .empty, [])
  | sectionSpacing :: sectionSpacings, level, offsetIntoPath, cluster =>
      match readDirectory disk (heap level) fuel cluster with
      | none => (none, [])
      | some none => (some .empty, [])
      | some (some entries) =>
          let s : Search := ⟨subdirectories, level, sectionSpacing,
            fun i => path.getD (offsetIntoPath + i) 0#8⟩
          match s.lookUp (heap level) 0 cluster entries with
          | .file entryName entry =>
              let cluster := newClusterPosition entry.rde
              (match scanForEntries disk (heap (level + 1) 0) fuel cluster.toNat with
                | some (some clusters) =>
                    some (createFile disk path sectionSpacing entryName entry clusters)
                | _ => none, [⟨entry, cluster⟩])
          | .next cluster =>
              let (file, selections) := traceLevels disk heap fuel path subdirectories
                sectionSpacings (level + 1) (offsetIntoPath + sectionSpacing + 1) cluster
              match s.selected (heap level) 0 entries with
              | none => (file, selections)
              | some entry => (file, ⟨entry, cluster⟩ :: selections)

def traceFile (disk : Fat32Partition) (mount : BitVec 8) (heap : Nat → Nat → ByteMemory)
    (fuel : Nat) (path : List Byte) : Option GeneralFile × List Selection :=
  if (path.getD 0 0#8).toInt = mount.toNat + 0x41 then
    match path.countP isSeparator with
    | 0 => (none, [])
    | subdirectories + 1 =>
        traceLevels disk heap fuel path subdirectories (sectionSpacing 0 path).tail 0 3 0
  else (some .empty, [])

section Selections

variable {disk : Fat32Partition} {mount : BitVec 8} {heap : Nat → Nat → ByteMemory}
  {fuel subdirectories level offset : Nat} {path : List Byte} {spacings : List Nat}
  {cluster cluster' : BitVec 32} {s : Search} {entry : DirectoryEntry}
  {entries : List DirectoryEntry} {r : RootDirectoryEntry} {i : Nat}

theorem traceLevels_fst :
    (traceLevels disk heap fuel path subdirectories spacings level offset cluster).1 =
      resolveLevels disk heap fuel path subdirectories spacings level offset cluster := by
  induction spacings generalizing level offset cluster with
  | nil => rfl
  | cons spacing spacings ih =>
      rw [traceLevels, resolveLevels]
      rcases readDirectory disk (heap level) fuel cluster with _ | _ | entries
      · rfl
      · rfl
      · generalize Search.mk subdirectories level spacing _ = s
        dsimp only
        cases s.lookUp (heap level) 0 cluster entries with
        | file entryName entry => rfl
        | next cluster =>
            dsimp only
            cases s.selected (heap level) 0 entries <;> exact ih

theorem traceFile_fst :
    (traceFile disk mount heap fuel path).1 = resolveFile disk mount heap fuel path := by
  unfold traceFile resolveFile
  split
  · cases path.countP isSeparator with
    | zero => rfl
    | succ subdirectories => exact traceLevels_fst
  · rfl

/-- What the loop leaves is the cluster of the entry it goes on with. -/
theorem lookUp_next {heap : Nat → ByteMemory}
    (h : s.lookUp heap i cluster entries = .next cluster') :
    cluster' = ((s.selected heap i entries).map
      fun entry => newClusterPosition entry.rde).getD cluster := by
  induction entries generalizing i cluster with
  | nil =>
      cases h
      rfl
  | cons entry entries ih =>
      rw [Search.lookUp] at h
      rw [Search.selected]
      split at h
      · rename_i hcorrect
        rw [if_pos hcorrect]
        split at h
        · contradiction
        · rw [ih h]
          cases s.selected heap (i + 1) entries <;> rfl
      · rename_i hcorrect
        rw [if_neg hcorrect]
        exact ih h

theorem traceLevels_cluster {selection : Selection}
    (hmem : selection ∈ (traceLevels disk heap fuel path subdirectories spacings level offset
      cluster).2) : selection.cluster = newClusterPosition selection.entry.rde := by
  induction spacings generalizing level offset cluster with
  | nil => contradiction
  | cons spacing spacings ih =>
      rw [traceLevels] at hmem
      split at hmem
      · contradiction
      · contradiction
      · dsimp only at hmem
        split at hmem
        · rw [List.mem_singleton.mp hmem]
        · rename_i hnext
          have hcluster := lookUp_next hnext
          split at hmem
          · exact ih hmem
          · rename_i hselected
            rw [hselected] at hcluster
            rcases List.mem_cons.mp hmem with rfl | hrest
            · exact hcluster
            · exact ih hrest

theorem traceFile_cluster {selection : Selection}
    (hmem : selection ∈ (traceFile disk mount heap fuel path).2) :
    selection.cluster = newClusterPosition selection.entry.rde := by
  unfold traceFile at hmem
  split at hmem
  · split at hmem
    · contradiction
    · exact traceLevels_cluster hmem
  · contradiction

/--
Of the entries that a resolution selects, at whatever level, those are decoded
whose first cluster has nothing in its upper half, and no others.
-/
theorem firstClusters_decoded_iff (disk : Fat32Partition) (mount : BitVec 8)
    (heap : Nat → Nat → ByteMemory) (fuel : Nat) (path : List Byte) :
    (traceFile disk mount heap fuel path).1 = resolveFile disk mount heap fuel path ∧
      ∀ selection ∈ (traceFile disk mount heap fuel path).2, (selection.Decoded ↔
        selection.entry.rde.high2BytesOfAddressOfFirstCluster = 0) := by
  refine ⟨traceFile_fst, fun selection hmem => ?_⟩
  rw [Selection.Decoded, traceFile_cluster hmem, toNat_newClusterPosition,
    RootDirectoryEntry.firstClusterNumber]
  constructor
  · intro heq
    apply BitVec.eq_of_toNat_eq
    simp
    omega
  · intro hzero
    rw [hzero]
    simp

end Selections

def highCluster : Fat32Partition :=
  { onlyFile with volume := fun i => if i = 1044 then 1 else onlyFile.volume i }

/-- The file begins in cluster 65539, and cluster 3 is scanned. -/
theorem resolveFile_drops_high :
    ¬ ∀ selection ∈ (traceFile highCluster 0 (fun _ _ _ => 0) 1 (pathTo 0x41 [] fTxt)).2,
      selection.Decoded := by
  have hnumbers : (traceFile highCluster 0 (fun _ _ _ => 0) 1 (pathTo 0x41 [] fTxt)).2.map
      (fun selection => (selection.cluster.toNat, selection.entry.rde.firstClusterNumber)) =
        [(3, 65539)] := by
    decide +kernel
  intro hall
  obtain ⟨selection, hmem, hpair⟩ :=
    List.mem_map.mp (hnumbers.symm ▸ List.mem_singleton_self (3, 65539))
  have hdecoded := hall selection hmem
  rw [Selection.Decoded, (Prod.mk.inj hpair).1, (Prod.mk.inj hpair).2] at hdecoded
  contradiction

end UnifiedOS.FileSystem.FAT32
