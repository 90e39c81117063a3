import UnifiedOS.Devices.APIC

/-!
# Staying in the MADT

The loop of `ReadAPIC` steps by a length byte of the table and reads the fields of
a record without looking at the bytes that are left.  Which records it comes to,
and so whether it ends and stays in the table, is decided by the table alone.
-/

namespace UnifiedOS.Devices

open UnifiedOS.Foundation

def neededBytes : Nat → Nat
  | 0 => 8
  | 1 => 8
  | 5 => 12
  | _ => 2

def recordAt (table : ByteMemory) (n : Nat) : Nat :=
  RecordWalk.position (recordLength table) 0x2C n

/-- The loop ends, and no byte that it has read is behind the table. -/
def StaysInTable (table : ByteMemory) : Prop :=
  ∃ s, APIC.readAPIC (some table) APIC.initial = some s ∧
    ∀ p ∈ s.reads, p < (MADTHeader.ofMemory table).length.toNat

namespace APIC

variable {table : ByteMemory} {s : APIC} {apict length : Nat} {records : List Nat}

def ReadsBelow (length : Nat) (s : APIC) : Prop := ∀ p ∈ s.reads, p < length

theorem forall_mem_range'_lt {p n : Nat} (hpos : 0 < n) :
    (∀ q ∈ List.range' p n, q < length) ↔ p + n ≤ length := by
  constructor
  · intro h
    have hlast := h (p + (n - 1)) (List.mem_range'_1.mpr (by omega))
    omega
  · intro h q hq
    rw [List.mem_range'_1] at hq
    omega

theorem readsBelow_touch {p n : Nat} (hpos : 0 < n) :
    (s.touch p n).ReadsBelow length ↔ p + n ≤ length ∧ s.ReadsBelow length := by
  unfold ReadsBelow
  rw [touch, List.forall_mem_append, forall_mem_range'_lt hpos]

def entryReads (table : ByteMemory) (apict : Nat) : Nat → List Nat
  | 0 =>
      (if (ProcessorLocalAPIC.ofMemory table (apict + 2)).flags &&& 1 ≠ 0 then
        List.range' (apict + 3) 1 else []) ++ List.range' (apict + 4) 4
  | 1 => List.range' (apict + 4) 4
  | 5 => List.range' (apict + 4) 8
  | _ => []

theorem reads_readEntry : (readEntry table apict s).reads =
    entryReads table apict (recordType table apict) ++ s.reads := by
  unfold readEntry
  split
  · rename_i htype
    rw [htype, entryReads]
    dsimp only
    split
    · rfl
    · rfl
  · rename_i htype
    rw [htype]
    rfl
  · rename_i htype
    rw [htype]
    rfl
  · rename_i htype
    rw [htype]
    rfl
  · rename_i hprocessor hioapic _ hlapic
    rw [entryReads]
    · rfl
    · exact hprocessor
    · exact hioapic
    · exact hlapic

theorem entryReads_lt_iff {type : Nat} (hrecord : apict + 2 ≤ length) :
    (∀ p ∈ entryReads table apict type, p < length) ↔ apict + neededBytes type ≤ length := by
  unfold entryReads
  split
  · rw [neededBytes]
    split
    · rw [List.forall_mem_append, forall_mem_range'_lt (by decide),
        forall_mem_range'_lt (by decide)]
      omega
    · rw [List.nil_append, forall_mem_range'_lt (by decide), Nat.add_assoc]
  · rw [forall_mem_range'_lt (by decide), neededBytes, Nat.add_assoc]
  · rw [forall_mem_range'_lt (by decide), neededBytes, Nat.add_assoc]
  · rename_i hprocessor hioapic hlapic
    rw [neededBytes]
    · simpa using hrecord
    · exact hprocessor
    · exact hioapic
    · exact hlapic

theorem readsBelow_readEntry (hrecord : apict + 2 ≤ length) :
    (readEntry table apict s).ReadsBelow length ↔
      apict + neededBytes (recordType table apict) ≤ length ∧ s.ReadsBelow length := by
  unfold ReadsBelow
  rw [reads_readEntry, List.forall_mem_append, entryReads_lt_iff hrecord]

theorem readsBelow_readRecord (hheader : 8 ≤ length) :
    (readRecord table apict s).ReadsBelow length ↔
      apict + neededBytes (recordType table apict) ≤ length ∧ s.ReadsBelow length := by
  have htwo : 2 ≤ neededBytes (recordType table apict) := by
    unfold neededBytes
    split <;> decide
  rw [readRecord, readsBelow_touch (by decide), readsBelow_touch (by decide)]
  constructor
  · rintro ⟨-, hlast, hentry⟩
    obtain ⟨hneeded, hbefore⟩ := (readsBelow_readEntry hlast).mp hentry
    exact ⟨hneeded, ((readsBelow_touch (by decide)).mp hbefore).2⟩
  · rintro ⟨hneeded, hbefore⟩
    refine ⟨hheader, by omega, (readsBelow_readEntry (by omega)).mpr ⟨hneeded, ?_⟩⟩
    exact (readsBelow_touch (by decide)).mpr ⟨by omega, hbefore⟩

theorem readsBelow_foldl (hheader : 8 ≤ length) :
    (records.foldl (fun s apict => readRecord table apict s) s).ReadsBelow length ↔
      (∀ apict ∈ records, apict + neededBytes (recordType table apict) ≤ length) ∧
        s.ReadsBelow length := by
  induction records generalizing s with
  | nil => simp
  | cons apict records ih =>
      rw [List.foldl_cons, ih, readsBelow_readRecord hheader, List.forall_mem_cons]
      tauto

theorem readRecords_readsBelow_iff (hheader : 8 ≤ length) (hbefore : s.ReadsBelow length) :
    (∃ s', readRecords table length s = some s' ∧ s'.ReadsBelow length) ↔
      ∃ records, RecordWalk.Visits (recordLength table) length 0x2C records ∧
        ∀ apict ∈ records, apict + neededBytes (recordType table apict) ≤ length := by
  have hstart : (s.touch 4 4).ReadsBelow length :=
    (readsBelow_touch (by decide)).mpr ⟨hheader, hbefore⟩
  constructor
  · rintro ⟨s', hread, hreads⟩
    obtain ⟨records, hvisits⟩ := RecordWalk.exists_visits_of_walk hread
    rw [readRecords_of_visits hvisits, Option.some.injEq] at hread
    rw [← hread, readsBelow_foldl hheader] at hreads
    exact ⟨records, hvisits, hreads.1⟩
  · rintro ⟨records, hvisits, hneeded⟩
    exact ⟨_, readRecords_of_visits hvisits s, (readsBelow_foldl hheader).mpr ⟨hneeded, hstart⟩⟩

end APIC

section Tables

variable {table : ByteMemory} {records : List Nat}

theorem staysInTable_iff_visits (hlength : 0x2C ≤ (MADTHeader.ofMemory table).length.toNat) :
    StaysInTable table ↔
      ∃ records, RecordWalk.Visits (recordLength table)
        (MADTHeader.ofMemory table).length.toNat 0x2C records ∧ ∀ apict ∈ records,
          apict + neededBytes (recordType table apict) ≤
            (MADTHeader.ofMemory table).length.toNat :=
  APIC.readRecords_readsBelow_iff (by omega) (by simp [APIC.ReadsBelow, APIC.initial])

theorem neededBytes_le_recordSize (type : Nat) : neededBytes type ≤ recordSize type := by
  unfold neededBytes
  split
  · decide
  · decide
  · decide
  · exact two_le_recordSize type

theorem Tiles.needed {stop start : Nat} (h : Tiles table stop start records) :
    ∀ apict ∈ records, apict + neededBytes (recordType table apict) ≤ stop := by
  induction h with
  | nil => simp
  | @cons start records hsize hrest ih =>
      have hneeded := neededBytes_le_recordSize (recordType table start)
      have hstop := hrest.start_le
      exact List.forall_mem_cons.mpr ⟨by omega, ih⟩

theorem Tiles.staysInTable
    (h : Tiles table (MADTHeader.ofMemory table).length.toNat 0x2C records) :
    StaysInTable table :=
  (staysInTable_iff_visits h.start_le).mpr ⟨records, h.visits, h.needed⟩

/--
The loop ends and stays in the table exactly if every record it comes to has a
length and the bytes that its type needs.
-/
theorem readAPIC_staysInTable_iff (table : ByteMemory)
    (hlength : 0x2C ≤ (MADTHeader.ofMemory table).length.toNat) :
    StaysInTable table ↔
      ∀ n, recordAt table n < (MADTHeader.ofMemory table).length.toNat →
        0 < recordLength table (recordAt table n) ∧
          recordAt table n + neededBytes (recordType table (recordAt table n)) ≤
            (MADTHeader.ofMemory table).length.toNat :=
  (staysInTable_iff_visits hlength).trans (RecordWalk.visits_forall_iff _)

end Tables

theorem readAPIC_staysInTable_iff_smallMADT : StaysInTable smallMADT :=
  (readAPIC_staysInTable_iff smallMADT (by decide)).mpr
    ((RecordWalk.visits_forall_iff _).mp
      ⟨_, tiles_smallMADT.visits, tiles_smallMADT.needed⟩)

/-- A table with one record of length 0, at which the loop stays. -/
theorem readAPIC_loops_on_length_zero :
    ¬ StaysInTable fun p => (List.replicate 4 0 ++ [0x2E, 0, 0, 0] ++ List.replicate 36 0 ++
      [3, 0]).getD p 0 := by
  intro h
  obtain ⟨records, hvisits, -⟩ := (staysInTable_iff_visits (by decide)).mp h
  have hmem := hvisits.mem_iff.mpr ⟨show 0x2C < _ by decide, 0, rfl⟩
  have hadvances := hvisits.advances _ hmem
  exact absurd hadvances (by decide)

end UnifiedOS.Devices
