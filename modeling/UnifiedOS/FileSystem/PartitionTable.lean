import UnifiedOS.FileSystem.BlockTransfer
import Mathlib.Data.List.Sort

/-!
# The partition table of a disk

`InitializePartitions` reads the header of the GUID partition table and the
array of entries behind it.  It fetches the whole sectors of the array, steps
through them by `sizeof(GPTPartitonEntry)` whatever size the header gives an
entry, and goes by the first byte of `TypeGUID` to tell whether one is in use.
-/

namespace UnifiedOS.FileSystem

open UnifiedOS.Foundation UnifiedOS.Memory
open DiskDevice

namespace GPT

def headerSignatureBigEndian : Nat := 0x5452415020494645

structure GPTHeader where
  signature : Nat
  partitionTableLBA : Nat
  partNum : Nat
  partEntrySize : Nat
  deriving DecidableEq, Repr

structure GPTPartitonEntry where
  typeGUID : List Byte
  partitionGUID : List Byte
  startLBA : Nat
  endLBA : Nat
  flags : Nat
  name : List Byte
  deriving DecidableEq, Repr

def GPTHeader.ofMemory (m : ByteMemory) (addr : Nat) : GPTHeader :=
  ⟨m.load addr 8, m.load (addr + 72) 8, m.load (addr + 80) 4, m.load (addr + 84) 4⟩

def bytesAt (m : ByteMemory) (addr n : Nat) : List Byte :=
  (List.range n).map fun k => m (addr + k)

def GPTPartitonEntry.ofMemory (m : ByteMemory) (addr : Nat) : GPTPartitonEntry :=
  ⟨bytesAt m addr 16, bytesAt m (addr + 16) 16, m.load (addr + 32) 8, m.load (addr + 40) 8,
    m.load (addr + 48) 8, bytesAt m (addr + 56) 72⟩

def sizeofEntry : Nat := 128

section Records

variable {m m' : ByteMemory} {addr addr' : Nat}

theorem bytesAt_congr {n : Nat} (h : ∀ k < n, m (addr + k) = m' (addr' + k)) :
    bytesAt m addr n = bytesAt m' addr' n :=
  List.map_congr_left fun k hk => h k (List.mem_range.mp hk)

private theorem part_agrees {size offset n : Nat} (h : ∀ k < size, m (addr + k) = m' (addr' + k))
    (hfit : offset + n ≤ size) : ∀ k < n, m (addr + offset + k) = m' (addr' + offset + k) := by
  intro k hk
  rw [Nat.add_assoc, Nat.add_assoc]
  exact h (offset + k) (by omega)

theorem GPTPartitonEntry.ofMemory_congr (h : ∀ k < 128, m (addr + k) = m' (addr' + k)) :
    ofMemory m addr = ofMemory m' addr' := by
  have htype : bytesAt m addr 16 = bytesAt m' addr' 16 :=
    bytesAt_congr fun k hk => h k (by omega)
  unfold ofMemory
  rw [htype, bytesAt_congr (part_agrees h (by norm_num)),
    ByteMemory.load_eq_load (part_agrees h (by norm_num)),
    ByteMemory.load_eq_load (part_agrees h (by norm_num)),
    ByteMemory.load_eq_load (part_agrees h (by norm_num)),
    bytesAt_congr (part_agrees h (by norm_num))]

theorem GPTHeader.ofMemory_congr (h : ∀ k < 512, m (addr + k) = m' (addr' + k)) :
    ofMemory m addr = ofMemory m' addr' := by
  have hsignature : m.load addr 8 = m'.load addr' 8 :=
    ByteMemory.load_eq_load fun k hk => h k (by omega)
  unfold ofMemory
  rw [hsignature, ByteMemory.load_eq_load (part_agrees h (by norm_num)),
    ByteMemory.load_eq_load (part_agrees h (by norm_num)),
    ByteMemory.load_eq_load (part_agrees h (by norm_num))]

@[simp] theorem GPTPartitonEntry.ofMemory_first :
    (ofMemory m addr).typeGUID.getD 0 0 = m addr := rfl

end Records

end GPT

open GPT

/-! ## `InitializePartitions` -/

namespace DiskDevice

/--
At most `fuel` tests of the loop over the entries.  `adopt` is what is done with an
entry that is passed to `GPTCreatePartition`: it becomes a partition, is listed
and mounted.  The entries passed are collected with their offsets in `Partitions`.
-/
def partitionLoop (adopt : GPTPartitonEntry → DiskState → DiskState) (header partitions : Nat) :
    Nat → BitVec 32 → List (Nat × GPTPartitonEntry) → DiskState →
      Option (List (Nat × GPTPartitonEntry) × DiskState)
  | 0, _, _, _ => none
  | fuel + 1, i, passed, s =>
      if i.toNat < (GPTHeader.ofMemory s.mem header).partNum then
        let offset := wrap64 (sizeofEntry * intToU64 i)
        let entry := GPTPartitonEntry.ofMemory s.mem (partitions + offset)
        if entry.typeGUID.getD 0 0 ≠ 0 then
          partitionLoop adopt header partitions fuel (i + 1) (passed ++ [(offset, entry)])
            (adopt entry s)
        else partitionLoop adopt header partitions fuel (i + 1) passed s
      else some (passed, s)

/--
`DiskDevice::InitializePartitions`, with the blocks `header` and `partitions` from
its two calls of `malloc`.  Without the signature it returns -1; otherwise it ends
without a `return`.
-/
def initializePartitions (dev : DiskDevice) (adopt : GPTPartitonEntry → DiskState → DiskState)
    (header partitions : Nat) (s : DiskState) :
    Option (Option Int × List (Nat × GPTPartitonEntry) × DiskState) :=
  let (_, s) := dev.readBlocks 1 1 header s
  let h := GPTHeader.ofMemory s.mem header
  if h.signature = headerSignatureBigEndian then
    let (_, s) := dev.readBlocks h.partitionTableLBA
      (wrap32 (h.partNum * h.partEntrySize) / dev.blocksize.toNat) partitions s
    (partitionLoop adopt header partitions (2 ^ 32 + 1) 0 [] s).map fun (passed, s) =>
      (none, passed, s)
  else some (some (-1), [], s)

end DiskDevice

/-! ## What the table on the disk says -/

def headerOf (disk : ByteMemory) : GPTHeader := GPTHeader.ofMemory disk 512

def tableByte (disk : ByteMemory) (offset : Nat) : Byte :=
  disk (512 * (headerOf disk).partitionTableLBA + offset)

def tableEntry (disk : ByteMemory) (offset : Nat) : GPTPartitonEntry :=
  GPTPartitonEntry.ofMemory disk (512 * (headerOf disk).partitionTableLBA + offset)

structure ValidHeader (disk : ByteMemory) : Prop where
  signature : (headerOf disk).signature = headerSignatureBigEndian
  partNum : 1 ≤ (headerOf disk).partNum
  partEntrySize : ∃ k, (headerOf disk).partEntrySize = 128 * 2 ^ k
  size : (headerOf disk).partNum * (headerOf disk).partEntrySize < 2 ^ 31
  onDisk : 512 * (headerOf disk).partitionTableLBA +
    (headerOf disk).partNum * (headerOf disk).partEntrySize ≤ 512 * 2 ^ 64

def GPT.GPTPartitonEntry.InUse (entry : GPTPartitonEntry) : Prop :=
  ∃ byte ∈ entry.typeGUID, byte ≠ 0

instance (entry : GPTPartitonEntry) : Decidable entry.InUse :=
  inferInstanceAs (Decidable (∃ byte ∈ entry.typeGUID, byte ≠ 0))

def usedEntries (disk : ByteMemory) : List (Nat × GPTPartitonEntry) :=
  (List.range (headerOf disk).partNum).filterMap fun i =>
    let offset := i * (headerOf disk).partEntrySize
    if (tableEntry disk offset).InUse then some (offset, tableEntry disk offset) else none

/-! ## The loop over the entries -/

def InBlocks (header partitions size x : Nat) : Prop :=
  (header ≤ x ∧ x < header + 512) ∨ (partitions ≤ x ∧ x < partitions + size)

def KeepsBlocks (adopt : GPTPartitonEntry → DiskState → DiskState)
    (header partitions size : Nat) : Prop :=
  ∀ entry s x, InBlocks header partitions size x → (adopt entry s).mem x = s.mem x

def passedAt (m : ByteMemory) (partitions i : Nat) : Option (Nat × GPTPartitonEntry) :=
  if m (partitions + 128 * i) ≠ 0 then
    some (128 * i, GPTPartitonEntry.ofMemory m (partitions + 128 * i))
  else none

section Loop

variable {adopt : GPTPartitonEntry → DiskState → DiskState} {header partitions size n : Nat}
  {m : ByteMemory}

theorem partitionLoop_eq (hkeeps : KeepsBlocks adopt header partitions size)
    (hheader : (GPTHeader.ofMemory m header).partNum = n) (hfit : 128 * n ≤ size)
    (hsize : size < 2 ^ 31) (remaining fuel i : Nat) (passed : List (Nat × GPTPartitonEntry))
    (s : DiskState) (hremaining : i + remaining = n) (hfuel : remaining < fuel)
    (hmem : ∀ x, InBlocks header partitions size x → s.mem x = m x) :
    ∃ s', partitionLoop adopt header partitions fuel (BitVec.ofNat 32 i) passed s =
      some (passed ++ (List.range' i remaining).filterMap (passedAt m partitions), s') := by
  have hcounter : ∀ i ≤ n, (BitVec.ofNat 32 i).toNat = i := fun i hi => by
    rw [BitVec.toNat_ofNat, Nat.mod_eq_of_lt (by omega)]
  have hpartNum : ∀ s : DiskState, (∀ x, InBlocks header partitions size x → s.mem x = m x) →
      (GPTHeader.ofMemory s.mem header).partNum = n := by
    intro s hmem
    rw [← hheader, GPTHeader.ofMemory_congr fun k hk => hmem _ (Or.inl ⟨by omega, by omega⟩)]
  induction remaining generalizing fuel i passed s with
  | zero =>
      obtain ⟨fuel, rfl⟩ := Nat.exists_eq_add_of_lt hfuel
      rw [partitionLoop, hcounter i (by omega), hpartNum s hmem, if_neg (by omega)]
      exact ⟨s, by simp⟩
  | succ remaining ih =>
      obtain ⟨fuel, rfl⟩ := Nat.exists_eq_add_of_lt hfuel
      have hnext : BitVec.ofNat 32 i + 1 = BitVec.ofNat 32 (i + 1) := (BitVec.ofNat_add i 1).symm
      have hoffset : wrap64 (sizeofEntry * intToU64 (BitVec.ofNat 32 i)) = 128 * i := by
        rw [intToU64_ofNat (by omega), if_pos (by omega), sizeofEntry, wrap64_of_lt (by omega)]
      have hentry : GPTPartitonEntry.ofMemory s.mem (partitions + 128 * i) =
          GPTPartitonEntry.ofMemory m (partitions + 128 * i) :=
        GPTPartitonEntry.ofMemory_congr fun k hk => hmem _ (Or.inr ⟨by omega, by omega⟩)
      rw [partitionLoop, hcounter i (by omega), hpartNum s hmem, if_pos (by omega)]
      dsimp only
      rw [hoffset, hentry, hnext, GPTPartitonEntry.ofMemory_first, List.range'_succ,
        List.filterMap_cons, passedAt]
      by_cases hused : m (partitions + 128 * i) ≠ 0
      · rw [if_pos hused, if_pos hused]
        obtain ⟨s', hs'⟩ := ih (remaining + 1 + fuel) (i + 1)
          (passed ++ [(128 * i, GPTPartitonEntry.ofMemory m (partitions + 128 * i))])
          (adopt (GPTPartitonEntry.ofMemory m (partitions + 128 * i)) s) (by omega) (by omega)
          fun x hx => (hkeeps _ s x hx).trans (hmem x hx)
        exact ⟨s', by rw [hs', List.append_assoc, List.singleton_append]⟩
      · rw [if_neg hused, if_neg hused]
        exact ih (remaining + 1 + fuel) (i + 1) passed s (by omega) (by omega) hmem

end Loop

/-! ## What is passed on -/

/--
A disk that works, two buffers that are free, and blocks from `malloc` that lie
apart from each other and from the bounce pages.
-/
structure BlocksPlaced (dev : DiskDevice) (bufferLock : BitVec 8) (header partitions size : Nat) :
    Prop where
  blocksize : dev.blocksize = 512
  succeeds : ∀ n, dev.succeeds n = true
  twoFree : ∃ i j, freeBuffer bufferLock = some i ∧
    freeBuffer (bufferLock ||| (1#8 <<< i)) = some j
  pages : ∀ i < 8, dev.buffer i + 0x1000 ≤ 2 ^ 64 ∧ OffPage (dev.buffer i) header 512 ∧
    OffPage (dev.buffer i) partitions size
  apart : header + 512 ≤ partitions ∨ partitions + size ≤ header

def tableSize (disk : ByteMemory) : Nat :=
  (headerOf disk).partNum * (headerOf disk).partEntrySize

theorem ValidHeader.sizeof_le {disk : ByteMemory} (hvalid : ValidHeader disk) :
    128 ≤ (headerOf disk).partEntrySize := by
  obtain ⟨k, hk⟩ := hvalid.partEntrySize
  rw [hk]
  exact Nat.le_mul_of_pos_right _ (Nat.two_pow_pos k)

theorem ValidHeader.records_fit {disk : ByteMemory} (hvalid : ValidHeader disk) :
    128 * (headerOf disk).partNum ≤ tableSize disk := by
  rw [tableSize, Nat.mul_comm]
  exact Nat.mul_le_mul_left _ hvalid.sizeof_le

def fetchedByte (s : DiskState) (partitions offset : Nat) : Byte :=
  if offset < 512 * (tableSize s.disk / 512) then tableByte s.disk offset
  else s.mem (partitions + offset)

section Run

variable {dev : DiskDevice} {adopt : GPTPartitonEntry → DiskState → DiskState}
  {header partitions : Nat} {s : DiskState}

theorem initializePartitions_eq
    (hplaced : BlocksPlaced dev s.bufferLock header partitions (tableSize s.disk))
    (hkeeps : KeepsBlocks adopt header partitions (tableSize s.disk))
    (hvalid : ValidHeader s.disk) :
    ∃ m s', (∀ k < tableSize s.disk, m (partitions + k) = fetchedByte s partitions k) ∧
      initializePartitions dev adopt header partitions s =
        some (none, (List.range (headerOf s.disk).partNum).filterMap (passedAt m partitions),
          s') := by
  obtain ⟨i, j, hi, hj⟩ := hplaced.twoFree
  have hb := hplaced.blocksize
  have hok := hplaced.succeeds
  obtain ⟨hpageI, hheaderI, htableI⟩ := hplaced.pages i (freeBuffer_some hi).1
  obtain ⟨hpageJ, hheaderJ, htableJ⟩ := hplaced.pages j (freeBuffer_some hj).1
  have hapart := hplaced.apart
  have hsize : tableSize s.disk < 2 ^ 31 := hvalid.size
  have honDisk : 512 * (headerOf s.disk).partitionTableLBA + tableSize s.disk ≤ 512 * 2 ^ 64 :=
    hvalid.onDisk
  unfold initializePartitions
  dsimp only
  -- the header
  have h₁ := readBlocks_fetched 1 1 hb hok hi hpageI hheaderI (by norm_num)
  have hlock := @readBlocks_bufferLock dev s 1 1 header
  rw [getBuffer, hi] at hlock
  generalize (dev.readBlocks 1 1 header s).2 = s₁ at h₁ hlock ⊢
  have hheader : GPTHeader.ofMemory s₁.mem header = headerOf s.disk :=
    GPTHeader.ofMemory_congr fun k hk => h₁.data k (by omega)
  have hcount : wrap32 ((headerOf s.disk).partNum * (headerOf s.disk).partEntrySize) /
      dev.blocksize.toNat = tableSize s.disk / 512 := by
    rw [hb, wrap32_of_lt (lt_trans hvalid.size (by norm_num))]
    rfl
  rw [hheader, if_pos hvalid.signature, hcount]
  -- the array
  have hwhole : OffPage (dev.buffer j) partitions (512 * (tableSize s.disk / 512)) := by
    have hrange := htableJ.inMemory
    have hoff := htableJ.apart
    exact ⟨by omega, by omega⟩
  have h₂ := readBlocks_fetched (s := s₁) (headerOf s.disk).partitionTableLBA
    (tableSize s.disk / 512) hb hok (hlock ▸ hj) hpageJ hwhole (by omega)
  generalize (dev.readBlocks (headerOf s.disk).partitionTableLBA (tableSize s.disk / 512)
    partitions s₁).2 = s₂ at h₂ ⊢
  have hheaderOff := hheaderJ.apart
  have htableOff := htableJ.apart
  have htableOff' := htableI.apart
  have hheader₂ : GPTHeader.ofMemory s₂.mem header = headerOf s.disk := by
    rw [← hheader]
    exact GPTHeader.ofMemory_congr fun k hk => h₂.rest _ (by omega) (by omega)
  have hrecords := hvalid.records_fit
  obtain ⟨s', hs'⟩ := partitionLoop_eq (s := s₂) (m := s₂.mem) hkeeps (by rw [hheader₂]) hrecords
    hsize (headerOf s.disk).partNum (2 ^ 32 + 1) 0 [] (Nat.zero_add _) (by omega) (fun x _ => rfl)
  refine ⟨s₂.mem, s', ?_, ?_⟩
  · intro k hk
    unfold fetchedByte
    split
    · rename_i hfetched
      rw [h₂.data k hfetched, h₁.disk]
      rfl
    · rw [h₂.rest _ (by omega) (by omega), h₁.rest _ (by omega) (by omega)]
  · rw [List.nil_append, ← List.range_eq_range'] at hs'
    rw [show (0 : BitVec 32) = BitVec.ofNat 32 0 from rfl, hs']
    rfl

end Run

/-! ## Lists of records by their offsets -/

section Offsets

variable {α : Type*} {f g : Nat → Option (Nat × α)} {offset offset' : Nat → Nat} {n : Nat}

private theorem pairwise_offsets (hoffset : StrictMono offset)
    (hf : ∀ i p, f i = some p → p.1 = offset i) :
    ((List.range n).filterMap f).Pairwise fun p q => p.1 < q.1 := by
  rw [List.pairwise_filterMap]
  refine List.pairwise_lt_range.imp ?_
  intro i j hlt p hp q hq
  rw [hf i p hp, hf j q hq]
  exact hoffset hlt

theorem filterMap_eq_iff (hoffset : StrictMono offset) (hoffset' : StrictMono offset')
    (hf : ∀ i p, f i = some p → p.1 = offset i) (hg : ∀ i p, g i = some p → p.1 = offset' i) :
    (List.range n).filterMap f = (List.range n).filterMap g ↔
      ∀ p, p ∈ (List.range n).filterMap f ↔ p ∈ (List.range n).filterMap g := by
  have : Std.Irrefl fun p q : Nat × α => p.1 < q.1 := ⟨fun _ => Nat.lt_irrefl _⟩
  have : Std.Antisymm fun p q : Nat × α => p.1 < q.1 :=
    ⟨fun _ _ hlt hgt => absurd hlt (Nat.lt_asymm hgt)⟩
  constructor
  · intro heq p
    rw [heq]
  · exact (pairwise_offsets hoffset hf).eq_of_mem_iff (pairwise_offsets hoffset' hg)

end Offsets

/-! ## When the table is parsed -/

/-- Whatever memory held, the entries in use are passed on, and only these. -/
def ParsesTable (dev : DiskDevice) (adopt : GPTPartitonEntry → DiskState → DiskState)
    (header partitions : Nat) (s : DiskState) : Prop :=
  ∀ mem, ∃ returned s', initializePartitions dev adopt header partitions { s with mem := mem } =
    some (returned, usedEntries s.disk, s')

/--
The sectors fetched reach over the records looked at, each entry in use is among
these and seen to be in use, and no other of these records looks like one.
-/
structure TableFits (disk : ByteMemory) : Prop where
  fetched : 128 * (headerOf disk).partNum ≤ 512 * (tableSize disk / 512)
  used : ∀ i < (headerOf disk).partNum,
    (tableEntry disk (i * (headerOf disk).partEntrySize)).InUse →
      tableByte disk (i * (headerOf disk).partEntrySize) ≠ 0 ∧
      i * (headerOf disk).partEntrySize < 128 * (headerOf disk).partNum
  entries : ∀ i < (headerOf disk).partNum, tableByte disk (128 * i) ≠ 0 →
    (headerOf disk).partEntrySize ∣ 128 * i

section Parses

variable {disk m : ByteMemory} {partitions : Nat} {p : Nat × GPTPartitonEntry}

theorem mem_usedEntries : p ∈ usedEntries disk ↔ ∃ i < (headerOf disk).partNum,
    (tableEntry disk (i * (headerOf disk).partEntrySize)).InUse ∧
    (i * (headerOf disk).partEntrySize,
      tableEntry disk (i * (headerOf disk).partEntrySize)) = p := by
  simp [usedEntries]

theorem mem_passed {n : Nat} : p ∈ (List.range n).filterMap (passedAt m partitions) ↔
    ∃ i < n, m (partitions + 128 * i) ≠ 0 ∧
      (128 * i, GPTPartitonEntry.ofMemory m (partitions + 128 * i)) = p := by
  simp [passedAt]

theorem GPT.GPTPartitonEntry.inUse_of_first {addr : Nat} (h : m addr ≠ 0) :
    (GPTPartitonEntry.ofMemory m addr).InUse := by
  refine ⟨m addr, ?_, h⟩
  exact List.mem_map.mpr ⟨0, List.mem_range.mpr (by norm_num), by rw [Nat.add_zero]⟩

theorem mem_passed_fetched {s : DiskState}
    (hfetched : 128 * (headerOf s.disk).partNum ≤ 512 * (tableSize s.disk / 512))
    (hm : ∀ k < tableSize s.disk, m (partitions + k) = fetchedByte s partitions k) :
    p ∈ (List.range (headerOf s.disk).partNum).filterMap (passedAt m partitions) ↔
      ∃ i < (headerOf s.disk).partNum, tableByte s.disk (128 * i) ≠ 0 ∧
        (128 * i, tableEntry s.disk (128 * i)) = p := by
  have hbyte : ∀ i < (headerOf s.disk).partNum, ∀ k < 128,
      m (partitions + 128 * i + k) = tableByte s.disk (128 * i + k) := by
    intro i hi k hk
    rw [Nat.add_assoc, hm _ (by omega), fetchedByte, if_pos (by omega)]
  have hentry : ∀ i < (headerOf s.disk).partNum,
      GPTPartitonEntry.ofMemory m (partitions + 128 * i) = tableEntry s.disk (128 * i) := by
    intro i hi
    refine GPTPartitonEntry.ofMemory_congr fun k hk => ?_
    rw [hbyte i hi k hk, tableByte, Nat.add_assoc]
  rw [mem_passed]
  constructor
  · rintro ⟨i, hi, hused, rfl⟩
    exact ⟨i, hi, hbyte i hi 0 (by norm_num) ▸ hused, by rw [hentry i hi]⟩
  · rintro ⟨i, hi, hused, rfl⟩
    exact ⟨i, hi, (hbyte i hi 0 (by norm_num)).symm ▸ hused, by rw [hentry i hi]⟩

end Parses

section Iff

variable {dev : DiskDevice} {adopt : GPTPartitonEntry → DiskState → DiskState}
  {header partitions : Nat} {s : DiskState}

theorem ParsesTable.passed (hparses : ParsesTable dev adopt header partitions s)
    (hplaced : BlocksPlaced dev s.bufferLock header partitions (tableSize s.disk))
    (hkeeps : KeepsBlocks adopt header partitions (tableSize s.disk))
    (hvalid : ValidHeader s.disk) (mem : ByteMemory) :
    ∃ m, (∀ k < tableSize s.disk,
        m (partitions + k) = fetchedByte { s with mem := mem } partitions k) ∧
      (List.range (headerOf s.disk).partNum).filterMap (passedAt m partitions) =
        usedEntries s.disk := by
  obtain ⟨m, s', hm, hrun⟩ := initializePartitions_eq (s := { s with mem := mem }) hplaced
    hkeeps hvalid
  obtain ⟨returned, s'', hparsed⟩ := hparses mem
  rw [hrun] at hparsed
  exact ⟨m, hm, congrArg (fun result => result.2.1) (Option.some.inj hparsed)⟩

/-- A record that was not fetched is whatever memory held. -/
theorem ParsesTable.fetched (hparses : ParsesTable dev adopt header partitions s)
    (hplaced : BlocksPlaced dev s.bufferLock header partitions (tableSize s.disk))
    (hkeeps : KeepsBlocks adopt header partitions (tableSize s.disk))
    (hvalid : ValidHeader s.disk) :
    128 * (headerOf s.disk).partNum ≤ 512 * (tableSize s.disk / 512) := by
  by_contra hshort
  have hpos := hvalid.partNum
  have hrecords := hvalid.records_fit
  have hlast : ∀ byte : Byte, byte ≠ 0 →
      (tableEntry s.disk (128 * ((headerOf s.disk).partNum - 1))).typeGUID.getD 0 0 = byte := by
    intro byte hused
    obtain ⟨m, hm, hparsed⟩ := hparses.passed hplaced hkeeps hvalid fun _ => byte
    have hbyte : m (partitions + 128 * ((headerOf s.disk).partNum - 1)) = byte := by
      rw [hm _ (by omega), fetchedByte, if_neg (by dsimp only; omega)]
    have hmem : (128 * ((headerOf s.disk).partNum - 1), GPTPartitonEntry.ofMemory m
        (partitions + 128 * ((headerOf s.disk).partNum - 1))) ∈ usedEntries s.disk := by
      rw [← hparsed, mem_passed]
      exact ⟨_, Nat.sub_one_lt (by omega), hbyte.symm ▸ hused, rfl⟩
    obtain ⟨i, hi, -, heq⟩ := mem_usedEntries.mp hmem
    obtain ⟨hoffset, hentry⟩ := Prod.mk.inj heq
    rw [← hoffset, hentry, GPTPartitonEntry.ofMemory_first, hbyte]
  have hone := hlast 1 (by decide)
  rw [hlast 2 (by decide)] at hone
  exact absurd hone (by decide)

theorem ParsesTable.fits (hparses : ParsesTable dev adopt header partitions s)
    (hplaced : BlocksPlaced dev s.bufferLock header partitions (tableSize s.disk))
    (hkeeps : KeepsBlocks adopt header partitions (tableSize s.disk))
    (hvalid : ValidHeader s.disk) : TableFits s.disk := by
  have hfetched := hparses.fetched hplaced hkeeps hvalid
  obtain ⟨m, hm, hparsed⟩ := hparses.passed hplaced hkeeps hvalid s.mem
  have hmembers : ∀ p, p ∈ usedEntries s.disk ↔
      ∃ i < (headerOf s.disk).partNum, tableByte s.disk (128 * i) ≠ 0 ∧
        (128 * i, tableEntry s.disk (128 * i)) = p := fun p => by
    rw [← hparsed, mem_passed_fetched hfetched hm]
  refine ⟨hfetched, ?_, ?_⟩
  · intro i hi hused
    obtain ⟨j, hj, hfirst, heq⟩ := (hmembers _).mp (mem_usedEntries.mpr ⟨i, hi, hused, rfl⟩)
    have hoffset := (Prod.mk.inj heq).1
    rw [← hoffset]
    exact ⟨hfirst, by omega⟩
  · intro i hi hfirst
    obtain ⟨j, hj, -, heq⟩ := mem_usedEntries.mp ((hmembers _).mpr ⟨i, hi, hfirst, rfl⟩)
    exact ⟨j, by rw [← (Prod.mk.inj heq).1, Nat.mul_comm]⟩

theorem TableFits.members {disk : ByteMemory} (hfits : TableFits disk) (hvalid : ValidHeader disk)
    (p : Nat × GPTPartitonEntry) :
    (∃ i < (headerOf disk).partNum, tableByte disk (128 * i) ≠ 0 ∧
      (128 * i, tableEntry disk (128 * i)) = p) ↔ p ∈ usedEntries disk := by
  obtain ⟨k, hk⟩ := hvalid.partEntrySize
  rw [mem_usedEntries]
  constructor
  · rintro ⟨i, hi, hfirst, rfl⟩
    obtain ⟨j, hj⟩ := hfits.entries i hi hfirst
    have hle : 128 * j ≤ 128 * i := by
      rw [hj]
      exact Nat.mul_le_mul_right j hvalid.sizeof_le
    rw [Nat.mul_comm (headerOf disk).partEntrySize] at hj
    rw [hj] at hfirst ⊢
    exact ⟨j, by omega, GPTPartitonEntry.inUse_of_first hfirst, rfl⟩
  · rintro ⟨i, hi, hused, rfl⟩
    obtain ⟨hfirst, hlt⟩ := hfits.used i hi hused
    have hoffset : i * (headerOf disk).partEntrySize = 128 * (i * 2 ^ k) := by
      rw [hk, Nat.mul_left_comm]
    rw [hoffset] at hfirst hlt ⊢
    exact ⟨i * 2 ^ k, by omega, hfirst, rfl⟩

theorem TableFits.parses (hfits : TableFits s.disk)
    (hplaced : BlocksPlaced dev s.bufferLock header partitions (tableSize s.disk))
    (hkeeps : KeepsBlocks adopt header partitions (tableSize s.disk))
    (hvalid : ValidHeader s.disk) :
    ParsesTable dev adopt header partitions s := by
  intro mem
  obtain ⟨m, s', hm, hrun⟩ := initializePartitions_eq (s := { s with mem := mem }) hplaced
    hkeeps hvalid
  have hsizeof := hvalid.sizeof_le
  have hstride : StrictMono fun i => 128 * i := fun i j hlt => by
    dsimp only
    omega
  have hstride' : StrictMono fun i => i * (headerOf s.disk).partEntrySize := fun i j hlt =>
    Nat.mul_lt_mul_of_pos_right hlt (by omega)
  have hlists : (List.range (headerOf s.disk).partNum).filterMap (passedAt m partitions) =
      usedEntries s.disk := by
    refine (filterMap_eq_iff hstride hstride' ?_ ?_).mpr fun p =>
      (mem_passed_fetched (s := { s with mem := mem }) hfits.fetched hm).trans
        (hfits.members hvalid p)
    · intro i p hp
      unfold passedAt at hp
      split at hp
      · rw [← Option.some.inj hp]
      · cases hp
    · intro i p hp
      dsimp only at hp
      split at hp
      · rw [← Option.some.inj hp]
      · cases hp
  exact ⟨none, s', by rw [hrun, hlists]⟩

/--
The table is parsed exactly when the sectors fetched hold every record that is
looked at, the entries in use lie among these records and start with a byte other
than zero, and no record between the entries does.
-/
theorem parsesTable_iff
    (hplaced : BlocksPlaced dev s.bufferLock header partitions (tableSize s.disk))
    (hkeeps : KeepsBlocks adopt header partitions (tableSize s.disk))
    (hvalid : ValidHeader s.disk) :
    ParsesTable dev adopt header partitions s ↔ TableFits s.disk :=
  ⟨fun hparses => hparses.fits hplaced hkeeps hvalid,
    fun hfits => hfits.parses hplaced hkeeps hvalid⟩

/-- A table with 128 bytes to an entry fits when whole sectors hold it and no entry hides. -/
theorem tableFits_iff_of_128 {disk : ByteMemory} (h : (headerOf disk).partEntrySize = 128) :
    TableFits disk ↔ 4 ∣ (headerOf disk).partNum ∧ ∀ i < (headerOf disk).partNum,
      (tableEntry disk (i * 128)).InUse → tableByte disk (i * 128) ≠ 0 := by
  have hsize : tableSize disk = (headerOf disk).partNum * 128 := by rw [tableSize, h]
  constructor
  · rintro ⟨hfetched, hused, -⟩
    rw [h] at hused
    exact ⟨by omega, fun i hi huse => (hused i hi huse).1⟩
  · rintro ⟨hwhole, hused⟩
    constructor
    · omega
    · rw [h]
      intro i hi huse
      exact ⟨hused i hi huse, by omega⟩
    · rw [h]
      intro i _ _
      exact Nat.dvd_mul_right 128 i

end Iff

/-! ## Two disks -/

/-- A disk with a table of four entries in sector 2, of which the first has this type. -/
def gptDisk (typeGUID : List Byte) : ByteMemory :=
  let blank : ByteMemory := fun _ => 0
  let signed := blank.store 512 8 headerSignatureBigEndian
  let header := ((signed.store (512 + 72) 8 2).store (512 + 80) 4 4).store (512 + 84) 4 128
  header.blit 1024 16 fun k => typeGUID.getD k 0

def basicData : List Byte := [0xA2, 0xA0, 0xD0, 0xEB, 0xE5, 0xB9, 0x33, 0x44,
  0x87, 0xC0, 0x68, 0xB6, 0xB7, 0x26, 0x99, 0xC7]

/-- A type whose number ends in a zero byte: `48465300-0000-11AA-AA11-00306543ECAC`. -/
def zeroFirst : List Byte := [0x00, 0x53, 0x46, 0x48, 0x00, 0x00, 0xAA, 0x11,
  0xAA, 0x11, 0x00, 0x30, 0x65, 0x43, 0xEC, 0xAC]

private theorem gptDisk_header (typeGUID : List Byte) :
    headerOf (gptDisk typeGUID) = ⟨headerSignatureBigEndian, 2, 4, 128⟩ := by
  have hload : ∀ addr n, 512 ≤ addr → addr + n ≤ 1024 → (gptDisk typeGUID).load addr n =
      (gptDisk []).load addr n := by
    intro addr n hlo hhi
    refine ByteMemory.load_congr fun x hx hx' => ?_
    rw [gptDisk, gptDisk, ByteMemory.blit_outside _ (by omega),
      ByteMemory.blit_outside _ (by omega)]
  rw [headerOf, GPTHeader.ofMemory, hload _ _ (by norm_num) (by norm_num),
    hload _ _ (by norm_num) (by norm_num), hload _ _ (by norm_num) (by norm_num),
    hload _ _ (by norm_num) (by norm_num)]
  decide +kernel

private theorem gptDisk_valid (typeGUID : List Byte) : ValidHeader (gptDisk typeGUID) := by
  constructor <;> rw [gptDisk_header]
  · decide
  · exact ⟨0, by decide⟩
  · decide
  · decide

private theorem idle_placed (typeGUID : List Byte) :
    BlocksPlaced idleDevice 0 0x100000 0x200000 (tableSize (gptDisk typeGUID)) := by
  have hsize : tableSize (gptDisk typeGUID) = 512 := by
    rw [tableSize, gptDisk_header]
    rfl
  rw [hsize]
  constructor
  · rfl
  · exact fun _ => rfl
  · exact ⟨0, 1, by decide, by decide⟩
  · intro i hi
    have hpage : idleDevice.buffer i = 0x1000 * (i + 1) := rfl
    rw [hpage]
    exact ⟨by omega, ⟨by omega, by omega⟩, ⟨by omega, by omega⟩⟩
  · omega

/-- The partition with the basic data type is found. -/
theorem parsesTable_basicData :
    ParsesTable idleDevice (fun _ s => s) 0x100000 0x200000
      { idleState with disk := gptDisk basicData } := by
  refine (parsesTable_iff (idle_placed basicData) (fun _ _ _ _ => rfl)
    (gptDisk_valid basicData)).mpr ?_
  have hentry : (headerOf (gptDisk basicData)).partEntrySize = 128 := by rw [gptDisk_header]
  refine (tableFits_iff_of_128 hentry).mpr ⟨?_, ?_⟩
  · rw [gptDisk_header]
  · decide +kernel

/-- The partition whose type starts with a zero byte is skipped. -/
theorem parsesTable_zeroFirst :
    ¬ ParsesTable idleDevice (fun _ s => s) 0x100000 0x200000
      { idleState with disk := gptDisk zeroFirst } := by
  intro hparses
  have hfits := hparses.fits (idle_placed zeroFirst) (fun _ _ _ _ => rfl) (gptDisk_valid zeroFirst)
  have hused : (tableEntry (gptDisk zeroFirst)
      (0 * (headerOf (gptDisk zeroFirst)).partEntrySize)).InUse := by decide +kernel
  have hpartNum : 0 < (headerOf (gptDisk zeroFirst)).partNum := by
    rw [gptDisk_header]
    norm_num
  exact (hfits.used 0 hpartNum hused).1 (by decide +kernel)

end UnifiedOS.FileSystem
