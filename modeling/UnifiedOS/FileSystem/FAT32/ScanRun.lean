import UnifiedOS.FileSystem.FAT32.FAT
import UnifiedOS.Foundation.TransitionSystem

/-!
# The loop of `ScanForEntries` as a run

`scanLoop` with its locals as a state and its body as a step.  Reading the
sector again brings the same bytes, so a run only follows the indices that one
buffer leads through.  Nothing counts its steps, and nothing keeps an index
inside the buffer: both are left to what is on the disk.
-/

namespace UnifiedOS.FileSystem.FAT32

open UnifiedOS.Foundation

structure ScanState where
  sector : ByteMemory
  prevSector : Nat
  currentEntryPos : Nat
  currentEntry : BitVec 32
  clusters : List (BitVec 32)

def ScanState.AtEnd (st : ScanState) : Prop := st.currentEntry = 0xFFFFFF#32

namespace Scan

def firstPos (s : Scan) (mbr : FAT32MBR) : Nat :=
  wrap64 (s.clusterStartNumber + s.clusterAddition) % mbr.fatEntries

def firstState (s : Scan) (disk : Fat32Partition) (heap : ByteMemory) : Option ScanState :=
  (s.readSector disk heap).map fun sector =>
    { sector := sector
      prevSector := s.startSector disk.mbr
      currentEntryPos := s.firstPos disk.mbr
      currentEntry := entryAt sector (s.firstPos disk.mbr)
      clusters := [s.represent disk.mbr (BitVec.ofNat 32 (s.firstPos disk.mbr))] }

def nextState (s : Scan) (disk : Fat32Partition) (st : ScanState) : ScanState :=
  let newSector := s.newSector disk.mbr
  let sector := if newSector ≠ st.prevSector then
    (s.readSector disk st.sector).getD st.sector else st.sector
  let currentEntryPos :=
    (st.currentEntry + BitVec.ofNat 32 s.clusterAddition).toNat % disk.mbr.fatEntries
  { sector := sector
    prevSector := newSector
    currentEntryPos := currentEntryPos
    currentEntry := entryAt sector currentEntryPos
    clusters := st.clusters ++ [s.represent disk.mbr st.currentEntry] }

end Scan

def firstEntry (mbr : FAT32MBR) (cluster : Nat) : BitVec 32 :=
  let s := Scan.start mbr cluster
  s.represent mbr (BitVec.ofNat 32 (s.firstPos mbr))

/-! ## The loop and its run -/

section Run

variable {disk : Fat32Partition} {s : Scan} {st : ScanState} {heap sector : ByteMemory}
  {fuel cluster pos : Nat} {clusters : List (BitVec 32)}

theorem scanForEntries_head
    (h : scanForEntries disk heap fuel cluster = some (some clusters)) :
    ∃ rest, clusters = firstEntry disk.mbr cluster :: rest := by
  simp only [scanForEntries] at h
  split at h
  · simp at h
  · obtain ⟨rest, -, hclusters⟩ := Option.map_eq_some_iff.mp h
    exact ⟨rest, (Option.some.inj hclusters).symm⟩

theorem scanLoop_succ :
    scanLoop disk s (fuel + 1) st.sector st.prevSector st.currentEntry =
      if st.currentEntry = 0xFFFFFF#32 then some []
      else (scanLoop disk s fuel (s.nextState disk st).sector (s.nextState disk st).prevSector
        (s.nextState disk st).currentEntry).map (s.represent disk.mbr st.currentEntry :: ·) :=
  rfl

theorem scanLoop_of_atEnd {k : Nat} (hk : k < fuel)
    (hend : ((s.nextState disk)^[k] st).AtEnd)
    (hbefore : ∀ j < k, ¬ ((s.nextState disk)^[j] st).AtEnd) :
    ∃ clusters, scanLoop disk s fuel st.sector st.prevSector st.currentEntry = some clusters ∧
      ((s.nextState disk)^[k] st).clusters = st.clusters ++ clusters := by
  induction k generalizing st fuel with
  | zero =>
      obtain ⟨fuel, rfl⟩ := Nat.exists_eq_succ_of_ne_zero (Nat.ne_zero_of_lt hk)
      have hmark : st.currentEntry = 0xFFFFFF#32 := hend
      refine ⟨[], ?_, by simp⟩
      rw [scanLoop_succ, if_pos hmark]
  | succ k ih =>
      obtain ⟨fuel, rfl⟩ := Nat.exists_eq_succ_of_ne_zero (Nat.ne_zero_of_lt hk)
      have hmark : ¬ st.currentEntry = 0xFFFFFF#32 := hbefore 0 (Nat.succ_pos k)
      obtain ⟨clusters, hloop, hclusters⟩ := @ih (s.nextState disk st) fuel (by omega) hend
        fun j hj => hbefore (j + 1) (by omega)
      refine ⟨s.represent disk.mbr st.currentEntry :: clusters, ?_, ?_⟩
      · rw [scanLoop_succ, if_neg hmark, hloop, Option.map_some]
      · rw [Function.iterate_succ_apply, hclusters]
        simp [Scan.nextState]

theorem scanLoop_isSome_iff :
    (scanLoop disk s fuel st.sector st.prevSector st.currentEntry).isSome = true ↔
      ∃ k < fuel, ((s.nextState disk)^[k] st).AtEnd := by
  induction fuel generalizing st with
  | zero => simp [scanLoop]
  | succ fuel ih =>
      rw [scanLoop_succ]
      by_cases hend : st.currentEntry = 0xFFFFFF#32
      · rw [if_pos hend]
        exact iff_of_true rfl ⟨0, Nat.succ_pos fuel, hend⟩
      · rw [if_neg hend, Option.isSome_map, ih]
        constructor
        · rintro ⟨k, hk, hatEnd⟩
          exact ⟨k + 1, by omega, hatEnd⟩
        · rintro ⟨k, hk, hatEnd⟩
          cases k with
          | zero => exact absurd hatEnd hend
          | succ k => exact ⟨k, by omega, hatEnd⟩

theorem scanForEntries_isSome_iff :
    (scanForEntries disk heap fuel cluster).isSome = true ↔
      ∀ st, (Scan.start disk.mbr cluster).firstState disk heap = some st →
        ∃ k < fuel, (((Scan.start disk.mbr cluster).nextState disk)^[k] st).AtEnd := by
  rw [scanForEntries, Scan.firstState]
  dsimp only
  cases hread : (Scan.start disk.mbr cluster).readSector disk heap with
  | none => simp
  | some sector =>
      dsimp only [Option.map_some]
      rw [Option.isSome_map]
      simp only [Option.some.injEq, forall_eq']
      exact @scanLoop_isSome_iff disk _ ⟨sector, (Scan.start disk.mbr cluster).startSector disk.mbr,
        (Scan.start disk.mbr cluster).firstPos disk.mbr,
        entryAt sector ((Scan.start disk.mbr cluster).firstPos disk.mbr), _⟩ fuel

theorem scanForEntries_of_atEnd {k : Nat} (hk : k < fuel)
    (hfirst : (Scan.start disk.mbr cluster).firstState disk heap = some st)
    (hend : (((Scan.start disk.mbr cluster).nextState disk)^[k] st).AtEnd)
    (hbefore : ∀ j < k, ¬ (((Scan.start disk.mbr cluster).nextState disk)^[j] st).AtEnd) :
    scanForEntries disk heap fuel cluster =
      some (some (((Scan.start disk.mbr cluster).nextState disk)^[k] st).clusters) := by
  obtain ⟨clusters, hloop, hclusters⟩ := scanLoop_of_atEnd hk hend hbefore
  rw [Scan.firstState, Option.map_eq_some_iff] at hfirst
  obtain ⟨sector, hread, rfl⟩ := hfirst
  dsimp only at hloop hclusters
  rw [scanForEntries]
  dsimp only
  rw [hread, hclusters]
  dsimp only
  rw [← Scan.firstPos, hloop]
  rfl

/-! ## What the run looks up -/

def Scan.sectorOffset (s : Scan) (mbr : FAT32MBR) : Nat :=
  wrap64 (mbr.bytesPerSector.toNat * s.startSector mbr)

def Scan.table (s : Scan) (disk : Fat32Partition) : ByteMemory :=
  fun i => disk.volume (s.sectorOffset disk.mbr + i)

/-- The buffer after a read: the bytes of the sector, and the heap behind them. -/
def Scan.buffered (s : Scan) (disk : Fat32Partition) (heap : ByteMemory) : ByteMemory :=
  fun i => if i < disk.mbr.bytesPerSector.toNat then s.table disk i else heap i

def Scan.lookUp (s : Scan) (mbr : FAT32MBR) (sector : ByteMemory) (pos : Nat) : Nat :=
  (entryAt sector pos + BitVec.ofNat 32 s.clusterAddition).toNat % mbr.fatEntries

def Scan.SectorReads (s : Scan) (disk : Fat32Partition) : Prop :=
  disk.succeeds (s.sectorOffset disk.mbr) disk.mbr.bytesPerSector.toNat = true

/-- The buffer holds the sector, and the current entry is the one at the current index. -/
structure LooksAt (s : Scan) (disk : Fat32Partition) (heap : ByteMemory) (st : ScanState) :
    Prop where
  reads : s.SectorReads disk
  sector : st.sector = s.buffered disk heap
  currentEntry : st.currentEntry = entryAt (s.buffered disk heap) st.currentEntryPos

theorem readSector_buffered (hreads : s.SectorReads disk) :
    s.readSector disk heap = some (s.buffered disk heap) := by
  unfold Scan.SectorReads Scan.sectorOffset at hreads
  rw [Scan.readSector, Fat32Partition.read, if_pos hreads]
  rfl

theorem readSector_of_not_reads (hreads : ¬ s.SectorReads disk) :
    s.readSector disk heap = none := by
  unfold Scan.SectorReads Scan.sectorOffset at hreads
  rw [Scan.readSector, Fat32Partition.read, if_neg hreads]

theorem buffered_buffered : s.buffered disk (s.buffered disk heap) = s.buffered disk heap := by
  funext i
  unfold Scan.buffered
  split <;> rfl

theorem exists_firstState (hreads : s.SectorReads disk) (heap : ByteMemory) :
    ∃ st, s.firstState disk heap = some st := by
  rw [Scan.firstState, readSector_buffered hreads, Option.map_some]
  exact ⟨_, rfl⟩

theorem firstState_looksAt (h : s.firstState disk heap = some st) :
    LooksAt s disk heap st ∧ st.currentEntryPos = s.firstPos disk.mbr := by
  by_cases hreads : s.SectorReads disk
  · rw [Scan.firstState, readSector_buffered hreads, Option.map_some] at h
    obtain rfl := Option.some.inj h
    exact ⟨⟨hreads, rfl, rfl⟩, rfl⟩
  · rw [Scan.firstState, readSector_of_not_reads hreads] at h
    contradiction

theorem nextState_looksAt (h : LooksAt s disk heap st) :
    LooksAt s disk heap (s.nextState disk st) ∧
      (s.nextState disk st).currentEntryPos =
        s.lookUp disk.mbr (s.buffered disk heap) st.currentEntryPos := by
  have hsector : (s.nextState disk st).sector = s.buffered disk heap := by
    unfold Scan.nextState
    dsimp only
    rw [h.sector, readSector_buffered h.reads, buffered_buffered, Option.getD_some, ite_self]
  refine ⟨⟨h.reads, hsector, ?_⟩, ?_⟩
  · rw [← hsector]
    rfl
  · rw [Scan.lookUp, ← h.currentEntry]
    rfl

theorem iterate_nextState_looksAt (h : LooksAt s disk heap st) (k : Nat) :
    LooksAt s disk heap ((s.nextState disk)^[k] st) ∧
      ((s.nextState disk)^[k] st).currentEntryPos =
        (s.lookUp disk.mbr (s.buffered disk heap))^[k] st.currentEntryPos := by
  induction k with
  | zero => exact ⟨h, rfl⟩
  | succ k ih =>
      rw [Function.iterate_succ_apply', Function.iterate_succ_apply']
      obtain ⟨hlooks, hpos⟩ := nextState_looksAt ih.1
      exact ⟨hlooks, by rw [hpos, ih.2]⟩

/-! ## How long it runs -/

/-- `ScanForEntries` returns, after at most one iteration for each entry of the table. -/
def EndsInTime (disk : Fat32Partition) (heap : ByteMemory) (cluster : Nat) : Prop :=
  disk.mbr.fatEntries ≠ 0 ∧
    (scanForEntries disk heap (disk.mbr.fatEntries + 1) cluster).isSome = true

/-- From the start cluster on the entries lead to an end mark. -/
def LeadsToEnd (disk : Fat32Partition) (heap : ByteMemory) (s : Scan) : Prop :=
  ∃ k, entryAt (s.buffered disk heap)
    ((s.lookUp disk.mbr (s.buffered disk heap))^[k] (s.firstPos disk.mbr)) = 0xFFFFFF#32

theorem lookUp_lt (hentries : disk.mbr.fatEntries ≠ 0) (sector : ByteMemory) (pos : Nat) :
    s.lookUp disk.mbr sector pos < disk.mbr.fatEntries :=
  Nat.mod_lt _ (Nat.pos_of_ne_zero hentries)

theorem atEnd_iterate_iff (h : s.firstState disk heap = some st) (k : Nat) :
    ((s.nextState disk)^[k] st).AtEnd ↔ entryAt (s.buffered disk heap)
      ((s.lookUp disk.mbr (s.buffered disk heap))^[k] (s.firstPos disk.mbr)) = 0xFFFFFF#32 := by
  obtain ⟨hlooks, hpos⟩ := firstState_looksAt h
  obtain ⟨hlooks, hpos'⟩ := iterate_nextState_looksAt hlooks k
  rw [ScanState.AtEnd, hlooks.currentEntry, hpos', hpos]

/--
The function ends in time exactly if the first read fails or the entries lead to
an end mark at all: on the way there no index comes twice.
-/
theorem endsInTime_iff (disk : Fat32Partition) (heap : ByteMemory) (cluster : Nat) :
    EndsInTime disk heap cluster ↔ disk.mbr.fatEntries ≠ 0 ∧
      ((Scan.start disk.mbr cluster).SectorReads disk →
        LeadsToEnd disk heap (Scan.start disk.mbr cluster)) := by
  refine and_congr_right fun hentries => ?_
  rw [scanForEntries_isSome_iff]
  generalize Scan.start disk.mbr cluster = s
  constructor
  · intro h hreads
    obtain ⟨st, hfirst⟩ := exists_firstState hreads heap
    obtain ⟨k, -, hend⟩ := h st hfirst
    exact ⟨k, (atEnd_iterate_iff hfirst k).mp hend⟩
  · intro h st hfirst
    have hfirstPos : s.firstPos disk.mbr < disk.mbr.fatEntries :=
      Nat.mod_lt _ (Nat.pos_of_ne_zero hentries)
    obtain ⟨k, hk, hend⟩ := exists_iterate_lt
      (P := fun pos => entryAt (s.buffered disk heap) pos = 0xFFFFFF#32)
      (fun pos _ => lookUp_lt hentries _ pos) hfirstPos (h (firstState_looksAt hfirst).1.reads)
    exact ⟨k, Nat.lt_succ_of_lt hk, (atEnd_iterate_iff hfirst k).mpr hend⟩

def freeTable : Fat32Partition where
  mbr := ⟨512, 1, 32, 2, 1⟩
  volume := fun _ => 0
  succeeds := fun _ _ => true

/-- A free entry leads to index 2, and from there to itself. -/
theorem free_entry_never_ends : ¬ EndsInTime freeTable (fun _ => 0) 3 := by
  rintro ⟨-, hreturns⟩
  rw [scanForEntries_isSome_iff] at hreturns
  obtain ⟨st, hfirst⟩ := exists_firstState
    (show (Scan.start freeTable.mbr 3).SectorReads freeTable from rfl) fun _ => 0
  obtain ⟨k, -, hend⟩ := hreturns st hfirst
  rw [atEnd_iterate_iff hfirst] at hend
  have hzero : (Scan.start freeTable.mbr 3).buffered freeTable (fun _ => 0) = fun _ => 0 := by
    funext i
    exact ite_self _
  have hfree : ∀ pos, entryAt (fun _ => 0) pos = 0#32 := by
    intro pos
    simp only [entryAt, get4Byte, get2Byte, getByte]
    decide
  rw [hzero, hfree] at hend
  exact absurd hend (by decide)

/-! ## Where it reads -/

/-- The states of the loop; a division by zero comes before the first of them. -/
def ScanReaches (disk : Fat32Partition) (heap : ByteMemory) (s : Scan) : ScanState → Prop :=
  Reachable (fun st => disk.mbr.fatEntries ≠ 0 ∧ s.firstState disk heap = some st)
    fun st st' => ¬ st.AtEnd ∧ st' = s.nextState disk st

def InsideSector (disk : Fat32Partition) (st : ScanState) : Prop :=
  st.currentEntryPos * 4 + 4 ≤ disk.mbr.bytesPerSector.toNat

/--
Some indices of the sector include the first one, and an entry of the table at
one of them is an end mark or leads to another.
-/
def StaysInSector (disk : Fat32Partition) (s : Scan) : Prop :=
  ∃ positions : Set Nat, s.firstPos disk.mbr ∈ positions ∧
    ∀ pos ∈ positions, pos * 4 + 4 ≤ disk.mbr.bytesPerSector.toNat ∧
      (entryAt (s.table disk) pos ≠ 0xFFFFFF#32 →
        s.lookUp disk.mbr (s.table disk) pos ∈ positions)

theorem entryAt_buffered (hpos : pos * 4 + 4 ≤ disk.mbr.bytesPerSector.toNat) :
    entryAt (s.buffered disk heap) pos = entryAt (s.table disk) pos := by
  have hbyte : ∀ i < pos * 4 + 4, s.buffered disk heap i = s.table disk i := by
    intro i hi
    rw [Scan.buffered, if_pos (by omega)]
  simp only [entryAt, get4Byte, get2Byte, getByte]
  rw [hbyte _ (by omega), hbyte _ (by omega), hbyte _ (by omega), hbyte _ (by omega)]

theorem lookUp_buffered (hpos : pos * 4 + 4 ≤ disk.mbr.bytesPerSector.toNat) :
    s.lookUp disk.mbr (s.buffered disk heap) pos = s.lookUp disk.mbr (s.table disk) pos := by
  rw [Scan.lookUp, Scan.lookUp, entryAt_buffered hpos]

theorem ScanReaches.looksAt (h : ScanReaches disk heap s st) : LooksAt s disk heap st := by
  refine h.invariant ?_ ?_
  · rintro st ⟨-, hfirst⟩
    exact (firstState_looksAt hfirst).1
  · rintro st st' hlooks ⟨-, rfl⟩
    exact (nextState_looksAt hlooks).1

theorem ScanReaches.fatEntries_ne_zero (h : ScanReaches disk heap s st) :
    disk.mbr.fatEntries ≠ 0 := by
  unfold ScanReaches at h
  induction h with
  | start hinit => exact hinit.1
  | next _ _ ih => exact ih

/--
Every entry read is in the buffer exactly if the table on the disk leads from the
start cluster to no index behind its first sector.
-/
theorem insideSector_iff (disk : Fat32Partition) (heap : ByteMemory) (cluster : Nat) :
    (∀ st, ScanReaches disk heap (Scan.start disk.mbr cluster) st → InsideSector disk st) ↔
      (disk.mbr.fatEntries ≠ 0 → (Scan.start disk.mbr cluster).SectorReads disk →
        StaysInSector disk (Scan.start disk.mbr cluster)) := by
  generalize Scan.start disk.mbr cluster = s
  constructor
  · intro hinside hentries hreads
    obtain ⟨st, hfirst⟩ := exists_firstState hreads heap
    refine ⟨{pos | ∃ st, ScanReaches disk heap s st ∧ st.currentEntryPos = pos}, ?_, ?_⟩
    · exact ⟨st, Reachable.start ⟨hentries, hfirst⟩, (firstState_looksAt hfirst).2⟩
    · rintro pos ⟨st, hreach, rfl⟩
      have hpos := hinside st hreach
      have hlooks := hreach.looksAt
      refine ⟨hpos, fun hmark => ?_⟩
      have hnotEnd : ¬ st.AtEnd := by
        rw [ScanState.AtEnd, hlooks.currentEntry, entryAt_buffered hpos]
        exact hmark
      refine ⟨s.nextState disk st, hreach.next ⟨hnotEnd, rfl⟩, ?_⟩
      rw [(nextState_looksAt hlooks).2, lookUp_buffered hpos]
  · intro hstays st hreach
    obtain ⟨positions, hfirstPos, hclosed⟩ :=
      hstays hreach.fatEntries_ne_zero hreach.looksAt.reads
    have hposition : st.currentEntryPos ∈ positions := by
      unfold ScanReaches at hreach
      induction hreach with
      | start hinit =>
          rw [(firstState_looksAt hinit.2).2]
          exact hfirstPos
      | @next st st' hreach hstep ih =>
          obtain ⟨hnotEnd, rfl⟩ := hstep
          have hlooks : LooksAt s disk heap st := ScanReaches.looksAt hreach
          obtain ⟨hinside, hnext⟩ := hclosed _ ih
          rw [(nextState_looksAt hlooks).2, lookUp_buffered hinside]
          apply hnext
          rw [← @entryAt_buffered disk s heap _ hinside, ← hlooks.currentEntry]
          exact hnotEnd
    exact (hclosed _ hposition).1

def longTable : Fat32Partition where
  mbr := ⟨512, 1, 32, 2, 2⟩
  volume := fun _ => 0
  succeeds := fun _ _ => true

/-- The entry of cluster 128 is the first one behind the buffer. -/
theorem cluster_outside_sector : ¬ ∀ st,
    ScanReaches longTable (fun _ => 0) (Scan.start longTable.mbr 128) st →
      InsideSector longTable st := by
  intro hall
  obtain ⟨st, hfirst⟩ := exists_firstState
    (show (Scan.start longTable.mbr 128).SectorReads longTable from rfl) fun _ => 0
  have hinside := hall st (Reachable.start ⟨by decide, hfirst⟩)
  rw [InsideSector, (firstState_looksAt hfirst).2] at hinside
  exact absurd hinside (by decide)

end Run

end UnifiedOS.FileSystem.FAT32
