import UnifiedOS.FileSystem.FAT32.FAT

/-!
# Which chains `ScanForEntries` follows

The driver reads the sector of the table that holds entry 0 and no other one,
looks up the start cluster `c` at index `c` but every later cluster `k` at index
`k + 2`, and compares 24 bits.  An index from 128 on is behind the sector, where
the heap decides what is read.
-/

namespace UnifiedOS.FileSystem.FAT32

open UnifiedOS.Foundation

structure Readable512 (disk : Fat32Partition) : Prop where
  bytesPerSector : disk.mbr.bytesPerSector = 512#16
  sectorsPerCluster : disk.mbr.sectorsPerCluster ≠ 0
  fatSize : disk.mbr.sectorsPerFAT.toNat * 512 < 2 ^ 32
  succeeds : ∀ off size, disk.succeeds off size = true

def fat (disk : Fat32Partition) (k : Nat) : Nat :=
  disk.volume.load (512 * disk.mbr.reservedSectors.toNat + k * 4) 4

/-- The table leads from `cluster` through `rest` to an end-of-chain value. -/
def ChainFrom (disk : Fat32Partition) : Nat → List Nat → Prop
  | cluster, [] => 0x0FFFFFF8 ≤ fat disk cluster % 2 ^ 28
  | cluster, next :: rest => fat disk cluster % 2 ^ 28 = next ∧ 2 ≤ next ∧
      next < disk.mbr.sectorsPerFAT.toNat * 128 ∧ ChainFrom disk next rest

/-- `k - 2 + (ReservedSectors + SectorsPerFAT * NumberOfFATs) / SectorsPerCluster` -/
def representation (disk : Fat32Partition) (k : Nat) : BitVec 32 :=
  BitVec.ofNat 32 k - 2#32 + BitVec.ofNat 32 disk.mbr.dataClusters

theorem toNat_representation {disk : Fat32Partition} {k : Nat} (hk : 2 ≤ k)
    (hsum : k - 2 + disk.mbr.dataClusters < 2 ^ 32) :
    (representation disk k).toNat = k - 2 + disk.mbr.dataClusters := by
  have hsub : BitVec.ofNat 32 k - 2#32 = BitVec.ofNat 32 (k - 2) := by
    rw [← BitVec.ofNat_sub_ofNat_of_le k 2 (by decide) hk]
  rw [representation, hsub, ← BitVec.ofNat_add, BitVec.toNat_ofNat, Nat.mod_eq_of_lt hsum]

/-- Whatever the heap holds, the clusters of the chain are returned in order. -/
def ReturnsChain (disk : Fat32Partition) (cluster : Nat) (rest : List Nat) : Prop :=
  ∀ heap, ∃ fuel, scanForEntries disk heap fuel cluster =
    some (some ((cluster :: rest).map (representation disk)))

/-- What the table's first sector must hold at the indices that are looked up. -/
def LooksUp (disk : Fat32Partition) : Nat → List Nat → Prop
  | index, [] => index < 128 ∧ fat disk index % 2 ^ 24 = 0xFFFFFF
  | index, next :: rest => index < 128 ∧ fat disk index % 2 ^ 24 = next ∧ next ≠ 0xFFFFFF ∧
      LooksUp disk ((next + 2) % (disk.mbr.sectorsPerFAT.toNat * 128)) rest

section Chain

variable {disk : Fat32Partition} {heap sector : ByteMemory} {cluster index : Nat}
  {rest : List Nat}

/-! ## The sector that is read -/

theorem fatEntries_eq (h : Readable512 disk) :
    disk.mbr.fatEntries = disk.mbr.sectorsPerFAT.toNat * 128 := by
  have hsize := h.fatSize
  have hbytes : (512#16).toNat = 512 := rfl
  rw [FAT32MBR.fatEntries, h.bytesPerSector, hbytes, Nat.mod_eq_of_lt hsize]
  omega

theorem toNat_entryAt (sector : ByteMemory) (index : Nat) :
    (entryAt sector index).toNat = sector.load (index * 4) 4 % 2 ^ 24 := by
  have hmask : (0xFFFFFF#32).toNat = 2 ^ 24 - 1 := rfl
  rw [entryAt, BitVec.toNat_and, littleEndian_get4Byte, hmask, Nat.and_two_pow_sub_one_eq_mod]

theorem cluster_div_fatEntries (h : Readable512 disk) (hlo : 2 ≤ cluster)
    (hhi : cluster < disk.mbr.sectorsPerFAT.toNat * 128) :
    (cluster - 2 + 2) / disk.mbr.fatEntries = 0 := by
  rw [fatEntries_eq h]
  exact Nat.div_eq_of_lt (by omega)

theorem start_eq (h : Readable512 disk) (hlo : 2 ≤ cluster)
    (hhi : cluster < disk.mbr.sectorsPerFAT.toNat * 128) :
    Scan.start disk.mbr cluster = ⟨cluster - 2, 2, false⟩ := by
  simp only [Scan.start, if_neg (Nat.not_lt.mpr hlo), cluster_div_fatEntries h hlo hhi]
  simp

theorem newSector_eq (h : Readable512 disk) (hlo : 2 ≤ cluster)
    (hhi : cluster < disk.mbr.sectorsPerFAT.toNat * 128) :
    Scan.newSector ⟨cluster - 2, 2, false⟩ disk.mbr = disk.mbr.reservedSectors.toNat := by
  have hsize := h.fatSize
  have hreserved := disk.mbr.reservedSectors.isLt
  have hstart : wrap64 (cluster - 2 + 2) = cluster - 2 + 2 := wrap64_of_lt (by omega)
  simp only [Scan.newSector]
  rw [hstart, cluster_div_fatEntries h hlo hhi, Nat.zero_add, wrap64_of_lt (by omega)]

theorem startSector_eq (h : Readable512 disk) (hlo : 2 ≤ cluster)
    (hhi : cluster < disk.mbr.sectorsPerFAT.toNat * 128) :
    Scan.startSector ⟨cluster - 2, 2, false⟩ disk.mbr = disk.mbr.reservedSectors.toNat := by
  have hreserved := disk.mbr.reservedSectors.isLt
  simp only [Scan.startSector, newSector_eq h hlo hhi]
  exact wrap64_of_lt (by simp; omega)

def firstSector (disk : Fat32Partition) (heap : ByteMemory) : ByteMemory := fun i =>
  if i < 512 then disk.volume (512 * disk.mbr.reservedSectors.toNat + i) else heap i

theorem readSector_eq (h : Readable512 disk) (hlo : 2 ≤ cluster)
    (hhi : cluster < disk.mbr.sectorsPerFAT.toNat * 128) :
    Scan.readSector ⟨cluster - 2, 2, false⟩ disk heap = some (firstSector disk heap) := by
  have hreserved := disk.mbr.reservedSectors.isLt
  have hbytes : (512#16).toNat = 512 := rfl
  rw [Scan.readSector, startSector_eq h hlo hhi, h.bytesPerSector, hbytes,
    wrap64_of_lt (by omega), Fat32Partition.read, if_pos (h.succeeds _ _)]
  rfl

theorem entryAt_inside (hindex : index < 128) :
    (entryAt (firstSector disk heap) index).toNat = fat disk index % 2 ^ 24 := by
  rw [toNat_entryAt, fat]
  congr 1
  have hbyte : ∀ i, i < 512 →
      firstSector disk heap i = disk.volume (512 * disk.mbr.reservedSectors.toNat + i) :=
    fun i hi => if_pos hi
  simp only [ByteMemory.load]
  rw [hbyte _ (by omega), hbyte _ (by omega), hbyte _ (by omega), hbyte _ (by omega)]
  simp only [Nat.add_assoc]

theorem entryAt_outside (hindex : 128 ≤ index) :
    entryAt (firstSector disk fun _ => 0) index = 0 := by
  apply BitVec.eq_of_toNat_eq
  rw [toNat_entryAt]
  have hbyte : ∀ i, 512 ≤ i → firstSector disk (fun _ => 0) i = 0 :=
    fun i hi => if_neg (by omega)
  simp only [ByteMemory.load]
  rw [hbyte _ (by omega), hbyte _ (by omega), hbyte _ (by omega), hbyte _ (by omega)]
  rfl

/-! ## The loop -/

def Walks (entries : Nat) (sector : ByteMemory) : BitVec 32 → List Nat → Prop
  | entry, [] => entry = 0xFFFFFF#32
  | entry, next :: rest => entry ≠ 0xFFFFFF#32 ∧ entry = BitVec.ofNat 32 next ∧
      Walks entries sector (entryAt sector ((entry + 2#32).toNat % entries)) rest

theorem representation_inj {entry : BitVec 32} {k : Nat} :
    Scan.represent ⟨cluster, 2, false⟩ disk.mbr entry = representation disk k ↔
      entry = BitVec.ofNat 32 k := by
  unfold Scan.represent representation
  constructor
  · intro h
    simpa using h
  · rintro rfl
    simp

/-- While the sector stays the same, the loop lists what the sector leads through. -/
theorem scanLoop_iff {entry : BitVec 32} {prevSector : Nat}
    (hsame : Scan.newSector ⟨cluster, 2, false⟩ disk.mbr = prevSector) :
    (∃ fuel, scanLoop disk ⟨cluster, 2, false⟩ fuel sector prevSector entry =
      some (rest.map (representation disk))) ↔ Walks disk.mbr.fatEntries sector entry rest := by
  have hstep : ∀ fuel entry, scanLoop disk ⟨cluster, 2, false⟩ (fuel + 1) sector prevSector entry =
      if entry = 0xFFFFFF#32 then some []
      else (scanLoop disk ⟨cluster, 2, false⟩ fuel sector prevSector
        (entryAt sector ((entry + 2#32).toNat % disk.mbr.fatEntries))).map
          (Scan.represent ⟨cluster, 2, false⟩ disk.mbr entry :: ·) := by
    intro fuel entry
    simp only [scanLoop, hsame, ne_eq, not_true, if_false]
  induction rest generalizing entry with
  | nil =>
      constructor
      · rintro ⟨fuel, hfuel⟩
        cases fuel with
        | zero => contradiction
        | succ fuel =>
            rw [hstep] at hfuel
            by_contra hmark
            have hnot : ¬ entry = 0xFFFFFF#32 := hmark
            rw [if_neg hnot] at hfuel
            simp at hfuel
      · intro hmark
        refine ⟨1, ?_⟩
        have hend : entry = 0xFFFFFF#32 := hmark
        rw [hstep, if_pos hend]
        rfl
  | cons next rest ih =>
      constructor
      · rintro ⟨fuel, hfuel⟩
        cases fuel with
        | zero => contradiction
        | succ fuel =>
            rw [hstep] at hfuel
            by_cases hmark : entry = 0xFFFFFF#32
            · rw [if_pos hmark] at hfuel
              simp at hfuel
            · rw [if_neg hmark, List.map_cons, Option.map_eq_some_iff] at hfuel
              obtain ⟨clusters, hclusters, hcons⟩ := hfuel
              obtain ⟨hhead, htail⟩ := List.cons.inj hcons
              rw [htail] at hclusters
              exact ⟨hmark, representation_inj.mp hhead, ih.mp ⟨fuel, hclusters⟩⟩
      · rintro ⟨hmark, hnext, hrest⟩
        obtain ⟨fuel, hfuel⟩ := ih.mpr hrest
        refine ⟨fuel + 1, ?_⟩
        rw [hstep, if_neg hmark, hfuel, Option.map_some, representation_inj.mpr hnext]
        rfl

theorem nextIndex_eq (h : Readable512 disk) {next : Nat}
    (hnext : (entryAt sector index).toNat = next) :
    (entryAt sector index + 2#32).toNat % disk.mbr.fatEntries =
      (next + 2) % (disk.mbr.sectorsPerFAT.toNat * 128) := by
  have hbound : next < 2 ^ 24 := by
    rw [← hnext, toNat_entryAt]
    exact Nat.mod_lt _ (by decide)
  have hsum : (entryAt sector index + 2#32).toNat = next + 2 := by
    rw [BitVec.toNat_add, hnext]
    simp
    omega
  rw [hsum, fatEntries_eq h]

/-- What the table must hold is what the loop needs, whatever the heap holds. -/
theorem walks_of_looksUp (h : Readable512 disk) (hlook : LooksUp disk index rest) :
    Walks disk.mbr.fatEntries (firstSector disk heap)
      (entryAt (firstSector disk heap) index) rest := by
  induction rest generalizing index with
  | nil =>
      obtain ⟨hindex, hend⟩ := hlook
      apply BitVec.eq_of_toNat_eq
      rw [entryAt_inside hindex, hend]
      rfl
  | cons next rest ih =>
      obtain ⟨hindex, hnext, hmark, hrest⟩ := hlook
      have hvalue := @entryAt_inside disk heap index hindex
      rw [hnext] at hvalue
      have hbound : next < 2 ^ 24 := by
        rw [← hnext]
        exact Nat.mod_lt _ (by decide)
      refine ⟨?_, ?_, ?_⟩
      · intro hend
        rw [hend] at hvalue
        exact hmark hvalue.symm
      · apply BitVec.eq_of_toNat_eq
        rw [hvalue, BitVec.toNat_ofNat, Nat.mod_eq_of_lt (by omega)]
      · rw [nextIndex_eq h hvalue]
        exact ih hrest

/-- With a cleared heap nothing else does. -/
theorem looksUp_of_walks (h : Readable512 disk) (hchain : ∀ next ∈ rest,
      2 ≤ next ∧ next < 2 ^ 32)
    (hwalks : Walks disk.mbr.fatEntries (firstSector disk fun _ => 0)
      (entryAt (firstSector disk fun _ => 0) index) rest) : LooksUp disk index rest := by
  have hinside : ∀ index value, entryAt (firstSector disk fun _ => 0) index = value →
      value ≠ 0 → index < 128 := by
    intro index value hvalue hne
    by_contra hindex
    exact hne (hvalue.symm.trans (entryAt_outside (by omega)))
  induction rest generalizing index with
  | nil =>
      have hend : entryAt (firstSector disk fun _ => 0) index = 0xFFFFFF#32 := hwalks
      have hindex := hinside index _ hend (by decide)
      refine ⟨hindex, ?_⟩
      rw [← @entryAt_inside disk (fun _ => 0) index hindex, hend]
      rfl
  | cons next rest ih =>
      obtain ⟨hmark, hnext, hrest⟩ := hwalks
      obtain ⟨hlo, hhi⟩ := hchain next List.mem_cons_self
      have hnonzero : BitVec.ofNat 32 next ≠ 0 := by
        intro hzero
        have hnat := congrArg BitVec.toNat hzero
        rw [BitVec.toNat_ofNat, Nat.mod_eq_of_lt hhi] at hnat
        have hbad : next = 0 := hnat
        omega
      have hindex := hinside index _ hnext hnonzero
      have hvalue := @entryAt_inside disk (fun _ => 0) index hindex
      have hnat : (entryAt (firstSector disk fun _ => 0) index).toNat = next := by
        rw [hnext, BitVec.toNat_ofNat, Nat.mod_eq_of_lt hhi]
      have hfat : fat disk index % 2 ^ 24 = next := hvalue.symm.trans hnat
      refine ⟨hindex, hfat, ?_, ?_⟩
      · intro hend
        apply hmark
        apply BitVec.eq_of_toNat_eq
        rw [hnat, hend]
        rfl
      · rw [nextIndex_eq h hnat] at hrest
        exact ih (fun d hd => hchain d (List.mem_cons_of_mem _ hd)) hrest

theorem ChainFrom.bounds (hchain : ChainFrom disk cluster rest) :
    ∀ next ∈ rest, 2 ≤ next ∧ next < disk.mbr.sectorsPerFAT.toNat * 128 := by
  induction rest generalizing cluster with
  | nil => simp
  | cons next rest ih =>
      obtain ⟨-, hlo, hhi, hrest⟩ := hchain
      intro d hd
      rcases List.mem_cons.mp hd with rfl | hd
      · exact ⟨hlo, hhi⟩
      · exact ih hrest d hd

theorem scanForEntries_iff (h : Readable512 disk) (hlo : 2 ≤ cluster)
    (hhi : cluster < disk.mbr.sectorsPerFAT.toNat * 128) :
    (∃ fuel, scanForEntries disk heap fuel cluster =
      some (some ((cluster :: rest).map (representation disk)))) ↔
    Walks disk.mbr.fatEntries (firstSector disk heap)
      (entryAt (firstSector disk heap) cluster) rest := by
  have hsize := h.fatSize
  have hindex : wrap64 (cluster - 2 + 2) % disk.mbr.fatEntries = cluster := by
    rw [wrap64_of_lt (by omega), fatEntries_eq h, Nat.mod_eq_of_lt (by omega)]
    omega
  have hstart := start_eq h hlo hhi
  rw [← scanLoop_iff (newSector_eq h hlo hhi)]
  constructor
  · rintro ⟨fuel, hfuel⟩
    refine ⟨fuel, ?_⟩
    simp only [scanForEntries, hstart, readSector_eq h hlo hhi, startSector_eq h hlo hhi,
      hindex, Option.map_eq_some_iff, Option.some.injEq] at hfuel
    obtain ⟨clusters, hclusters, hcons⟩ := hfuel
    rw [hclusters]
    exact congrArg some (List.cons.inj hcons).2
  · rintro ⟨fuel, hfuel⟩
    refine ⟨fuel, ?_⟩
    simp only [scanForEntries, hstart, readSector_eq h hlo hhi, startSector_eq h hlo hhi,
      hindex, hfuel, Option.map_some, List.map_cons, representation_inj.mpr rfl]

theorem looksUp_of_returnsChain (h : Readable512 disk) (hlo : 2 ≤ cluster)
    (hhi : cluster < disk.mbr.sectorsPerFAT.toNat * 128) (hchain : ChainFrom disk cluster rest)
    (hreturns : ReturnsChain disk cluster rest) : LooksUp disk cluster rest := by
  have hsize := h.fatSize
  refine looksUp_of_walks h ?_ ((scanForEntries_iff h hlo hhi).mp (hreturns _))
  intro next hmem
  have hbound := hchain.bounds next hmem
  omega

theorem returnsChain_iff (h : Readable512 disk) (hlo : 2 ≤ cluster)
    (hhi : cluster < disk.mbr.sectorsPerFAT.toNat * 128) (hchain : ChainFrom disk cluster rest) :
    ReturnsChain disk cluster rest ↔ LooksUp disk cluster rest :=
  ⟨looksUp_of_returnsChain h hlo hhi hchain,
    fun hlook _ => (scanForEntries_iff h hlo hhi).mpr (walks_of_looksUp h hlook)⟩

end Chain

/-- One sector of table at byte 0x4000: cluster 3 leads to cluster 4, which ends the file. -/
def twoClusterFile : Fat32Partition where
  mbr := ⟨512, 1, 32, 2, 1⟩
  volume := ByteMemory.store (ByteMemory.store (fun _ => 0) (0x4000 + 3 * 4) 4 4)
    (0x4000 + 4 * 4) 4 0x0FFFFFFF
  succeeds := fun _ _ => true

theorem readable512_twoClusterFile : Readable512 twoClusterFile :=
  ⟨rfl, by decide, by decide, fun _ _ => rfl⟩

theorem chainFrom_twoClusterFile : ChainFrom twoClusterFile 3 [4] :=
  ⟨by decide +kernel, by decide, by decide, by unfold ChainFrom; decide +kernel⟩

/-- The same file with an end mark at index 6 as well, where the driver looks behind cluster 4. -/
def endMarkBehind : Fat32Partition :=
  { twoClusterFile with volume := twoClusterFile.volume.store (0x4000 + 6 * 4) 4 0x0FFFFFFF }

theorem returnsChain_iff_two : ReturnsChain endMarkBehind 3 [4] := by
  have hreadable : Readable512 endMarkBehind := ⟨rfl, by decide, by decide, fun _ _ => rfl⟩
  have hchain : ChainFrom endMarkBehind 3 [4] :=
    ⟨by decide +kernel, by decide, by decide, by unfold ChainFrom; decide +kernel⟩
  have hlook : LooksUp endMarkBehind 3 [4] :=
    ⟨by decide, by decide +kernel, by decide, by unfold LooksUp; decide +kernel⟩
  exact (returnsChain_iff hreadable (by decide) (by decide) hchain).mpr hlook

theorem scanForEntries_leaves_chain :
    ¬ ∀ (disk : Fat32Partition) (cluster : Nat) (rest : List Nat), Readable512 disk →
      2 ≤ cluster → cluster < disk.mbr.sectorsPerFAT.toNat * 128 →
      ChainFrom disk cluster rest → ReturnsChain disk cluster rest := by
  intro hall
  have hreturns := hall twoClusterFile 3 [4] readable512_twoClusterFile (by decide)
    (by decide) chainFrom_twoClusterFile
  obtain ⟨-, -, -, -, hend⟩ := looksUp_of_returnsChain readable512_twoClusterFile (by decide)
    (by decide) chainFrom_twoClusterFile hreturns
  exact absurd hend (by decide +kernel)

end UnifiedOS.FileSystem.FAT32
