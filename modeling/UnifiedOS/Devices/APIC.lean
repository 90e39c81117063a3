import UnifiedOS.Foundation.ByteMemory
import UnifiedOS.Foundation.RecordWalk

/-!
# The interrupt controllers in the MADT

`APIC::ReadAPIC` goes through the records behind the header of the MADT and keeps
the processors that can be turned on, the source overrides and the addresses of
the controllers.  Addresses are offsets from the start of the table, and behind
the table comes whatever memory there is.
-/

namespace UnifiedOS.Devices

open UnifiedOS.Foundation

/-! ## The table -/

structure MADTHeader where
  length : BitVec 32
  apicAddress : BitVec 32

def MADTHeader.ofMemory (table : ByteMemory) : MADTHeader where
  length := BitVec.ofNat 32 (table.load 4 4)
  apicAddress := BitVec.ofNat 32 (table.load 0x24 4)

/-- Type 0 -/
structure ProcessorLocalAPIC where
  processorID : Byte
  apicID : Byte
  flags : BitVec 32

def ProcessorLocalAPIC.ofMemory (table : ByteMemory) (p : Nat) : ProcessorLocalAPIC where
  processorID := table p
  apicID := table (p + 1)
  flags := BitVec.ofNat 32 (table.load (p + 2) 4)

/-- Type 1 -/
structure IOAPIC where
  ioapicID : Byte
  ioapicAddress : BitVec 32
  globalSystemInterruptBase : BitVec 32

def IOAPIC.ofMemory (table : ByteMemory) (p : Nat) : IOAPIC where
  ioapicID := table p
  ioapicAddress := BitVec.ofNat 32 (table.load (p + 2) 4)
  globalSystemInterruptBase := BitVec.ofNat 32 (table.load (p + 6) 4)

/-- Type 5 -/
structure LocalAPICAddressOverride where
  physicalAddress : BitVec 64

def LocalAPICAddressOverride.ofMemory (table : ByteMemory) (p : Nat) :
    LocalAPICAddressOverride where
  physicalAddress := BitVec.ofNat 64 (table.load (p + 2) 8)

def recordSize : Nat → Nat
  | 0 => 8
  | 1 => 12
  | 2 => 10
  | 3 => 10
  | 4 => 6
  | 5 => 12
  | 9 => 16
  | _ => 2

def recordType (table : ByteMemory) (apict : Nat) : Nat := (table apict).toNat

def recordLength (table : ByteMemory) (apict : Nat) : Nat := (table (apict + 1)).toNat

/-! ## Reading it -/

/-- The variables of `APIC`; an entry of `ISOs` is the offset of the record behind its length. -/
structure APIC where
  lapicIDs : BitVec 8 → Byte
  coreCount : BitVec 8
  lapicPtr : BitVec 64
  ioapicPtr : BitVec 64
  isos : BitVec 8 → Option Nat
  isoSize : BitVec 8
  /-- Not in the source: the offsets of the bytes that the loop over the records reads. -/
  reads : List Nat

namespace APIC

def initial : APIC := ⟨fun _ => 0, 0, 0, 0, fun _ => none, 0, []⟩

def touch (s : APIC) (p n : Nat) : APIC := { s with reads := List.range' p n ++ s.reads }

/-- The `switch` of `ReadAPIC`; the types it ignores are among the others. -/
def readEntry (table : ByteMemory) (apict : Nat) (s : APIC) : APIC :=
  match recordType table apict with
  | 0 =>
      let processor := ProcessorLocalAPIC.ofMemory table (apict + 2)
      let s := s.touch (apict + 4) 4
      if processor.flags &&& 1 ≠ 0 then
        let s := s.touch (apict + 3) 1
        { s with
          lapicIDs := Function.update s.lapicIDs s.coreCount processor.apicID
          coreCount := s.coreCount + 1 }
      else s
  | 1 =>
      let ioapic := IOAPIC.ofMemory table (apict + 2)
      let s := s.touch (apict + 4) 4
      { s with ioapicPtr := ioapic.ioapicAddress.setWidth 64 }
  | 2 =>
      { s with
        isos := Function.update s.isos s.isoSize (some (apict + 2))
        isoSize := s.isoSize + 1 }
  | 5 =>
      let lapicAddressOverride := LocalAPICAddressOverride.ofMemory table (apict + 2)
      let s := s.touch (apict + 4) 8
      { s with lapicPtr := lapicAddressOverride.physicalAddress }
  | _ => s

/-- A round of the loop: the type, the record, its length, and `Header.Length` for the next test. -/
def readRecord (table : ByteMemory) (apict : Nat) (s : APIC) : APIC :=
  ((readEntry table apict (s.touch apict 1)).touch (apict + 1) 1).touch 4 4

/-- The loop; with more tests than bytes it has come to a record of length 0. -/
def readRecords (table : ByteMemory) (length : Nat) (s : APIC) : Option APIC :=
  RecordWalk.walk (recordLength table) length (readRecord table) (length + 1) 0x2C (s.touch 4 4)

/-- `APIC::ReadAPIC`, with the table that `FindTable` finds. -/
def readAPIC (madt : Option ByteMemory) (s : APIC) : Option APIC :=
  match madt with
  | none => some s
  | some table =>
      let header := MADTHeader.ofMemory table
      readRecords table header.length.toNat { s with lapicPtr := header.apicAddress.setWidth 64 }

end APIC

/-! ## What the records say -/

section Records

variable (table : ByteMemory)

/-- The records tile the bytes up to `stop`, and each is long enough for its type. -/
inductive Tiles (stop : Nat) : Nat → List Nat → Prop
  | nil : Tiles stop stop []
  | cons {start : Nat} {records : List Nat}
      (hsize : recordSize (recordType table start) ≤ recordLength table start)
      (hrest : Tiles stop (start + recordLength table start) records) :
      Tiles stop start (start :: records)

def enabledID (apict : Nat) : Option Byte :=
  let processor := ProcessorLocalAPIC.ofMemory table (apict + 2)
  if recordType table apict = 0 ∧ processor.flags &&& 1 ≠ 0 then some processor.apicID else none

def sourceOverride (apict : Nat) : Option Nat :=
  if recordType table apict = 2 then some (apict + 2) else none

def ioapicAddress (apict : Nat) : Option (BitVec 64) :=
  if recordType table apict = 1 then
    some ((IOAPIC.ofMemory table (apict + 2)).ioapicAddress.setWidth 64)
  else none

def lapicAddress (apict : Nat) : Option (BitVec 64) :=
  if recordType table apict = 5 then
    some (LocalAPICAddressOverride.ofMemory table (apict + 2)).physicalAddress
  else none

def lastOf {α : Type*} (field : Nat → Option α) (records : List Nat) (before : α) : α :=
  (records.filterMap field).getLast?.getD before

end Records

section Tilings

variable {table : ByteMemory} {stop start : Nat} {records : List Nat}

theorem two_le_recordSize (type : Nat) : 2 ≤ recordSize type := by
  unfold recordSize
  split <;> decide

theorem Tiles.start_le (h : Tiles table stop start records) : start ≤ stop := by
  induction h with
  | nil => exact Nat.le_refl stop
  | cons hsize hrest ih => omega

theorem Tiles.visits (h : Tiles table stop start records) :
    RecordWalk.Visits (recordLength table) stop start records := by
  induction h with
  | nil => exact .done (Nat.le_refl stop)
  | @cons start records hsize hrest ih =>
      have htwo := two_le_recordSize (recordType table start)
      have hstop := hrest.start_le
      exact .visit (by omega) (by omega) ih

end Tilings

namespace APIC

def ids (s : APIC) : List Byte :=
  (List.range s.coreCount.toNat).map fun i => s.lapicIDs (BitVec.ofNat 8 i)

def overrides (s : APIC) : List (Option Nat) :=
  (List.range s.isoSize.toNat).map fun i => s.isos (BitVec.ofNat 8 i)

structure Describes (s : APIC) (table : ByteMemory) (records : List Nat) : Prop where
  ids : s.ids = records.filterMap (enabledID table)
  overrides : s.overrides = (records.filterMap (sourceOverride table)).map some
  ioapicPtr : s.ioapicPtr = lastOf (ioapicAddress table) records 0
  lapicPtr : s.lapicPtr = lastOf (lapicAddress table) records
    ((MADTHeader.ofMemory table).apicAddress.setWidth 64)

/-! ## One record -/

variable {table : ByteMemory} {s s' : APIC} {apict : Nat} {records : List Nat}

def pushed {α : Type*} (array : BitVec 8 → α) (count : BitVec 8) :
    Option α → (BitVec 8 → α) × BitVec 8
  | none => (array, count)
  | some x => (Function.update array count x, count + 1)

theorem map_pushed {α : Type*} (array : BitVec 8 → α) (count : BitVec 8) (entry : Option α)
    (hroom : count.toNat + entry.toList.length < 256) :
    (List.range (pushed array count entry).2.toNat).map
        (fun i => (pushed array count entry).1 (BitVec.ofNat 8 i)) =
      (List.range count.toNat).map (fun i => array (BitVec.ofNat 8 i)) ++ entry.toList := by
  cases entry with
  | none => rw [pushed, Option.toList_none, List.append_nil]
  | some x =>
      have hnext : (count + 1).toNat = count.toNat + 1 := by
        rw [BitVec.toNat_add]
        exact Nat.mod_eq_of_lt hroom
      simp only [pushed, Option.toList_some]
      rw [hnext, List.range_succ, List.map_append, List.map_singleton, BitVec.ofNat_toNat,
        BitVec.setWidth_eq, Function.update_self]
      congr 1
      apply List.map_congr_left
      intro i hi
      rw [List.mem_range] at hi
      refine Function.update_of_ne ?_ _ _
      intro heq
      have hvalue := congrArg BitVec.toNat heq
      rw [BitVec.toNat_ofNat] at hvalue
      omega

theorem readEntry_eq (table : ByteMemory) (apict : Nat) (s : APIC) :
    readEntry table apict s =
      { lapicIDs := (pushed s.lapicIDs s.coreCount (enabledID table apict)).1
        coreCount := (pushed s.lapicIDs s.coreCount (enabledID table apict)).2
        lapicPtr := (lapicAddress table apict).getD s.lapicPtr
        ioapicPtr := (ioapicAddress table apict).getD s.ioapicPtr
        isos := (pushed s.isos s.isoSize ((sourceOverride table apict).map some)).1
        isoSize := (pushed s.isos s.isoSize ((sourceOverride table apict).map some)).2
        reads := (readEntry table apict s).reads } := by
  unfold readEntry enabledID lapicAddress ioapicAddress sourceOverride
  split
  · rename_i htype
    simp only [htype, true_and]
    split
    · rfl
    · rfl
  · rename_i htype
    simp [htype, pushed, touch]
  · rename_i htype
    simp [htype, pushed]
  · rename_i htype
    simp [htype, pushed, touch]
  · rename_i hprocessor hioapic hoverride hlapic
    rw [if_neg fun henabled => hprocessor henabled.1, if_neg hioapic, if_neg hoverride,
      if_neg hlapic]
    rfl

theorem length_ids (s : APIC) : s.ids.length = s.coreCount.toNat := by
  simp [ids]

theorem length_overrides (s : APIC) : s.overrides.length = s.isoSize.toNat := by
  simp [overrides]

theorem ids_readRecord (hroom : s.ids.length + (enabledID table apict).toList.length < 256) :
    (readRecord table apict s).ids = s.ids ++ (enabledID table apict).toList := by
  rw [length_ids] at hroom
  rw [readRecord, readEntry_eq]
  exact map_pushed s.lapicIDs s.coreCount _ hroom

theorem overrides_readRecord
    (hroom : s.overrides.length + ((sourceOverride table apict).map some).toList.length < 256) :
    (readRecord table apict s).overrides =
      s.overrides ++ ((sourceOverride table apict).map some).toList := by
  rw [length_overrides] at hroom
  rw [readRecord, readEntry_eq]
  exact map_pushed s.isos s.isoSize _ hroom

theorem ioapicPtr_readRecord :
    (readRecord table apict s).ioapicPtr = (ioapicAddress table apict).getD s.ioapicPtr := by
  rw [readRecord, readEntry_eq]
  rfl

theorem lapicPtr_readRecord :
    (readRecord table apict s).lapicPtr = (lapicAddress table apict).getD s.lapicPtr := by
  rw [readRecord, readEntry_eq]
  rfl

/-! ## All records -/

theorem lastOf_cons {α : Type*} (field : Nat → Option α) (before : α) :
    lastOf field (apict :: records) before = lastOf field records ((field apict).getD before) := by
  cases hfield : field apict with
  | none => simp [lastOf, hfield]
  | some value => simp [lastOf, hfield, List.getLast?_cons]

theorem ids_foldl (hroom : s.ids.length + (records.filterMap (enabledID table)).length < 256) :
    (records.foldl (fun s apict => readRecord table apict s) s).ids =
      s.ids ++ records.filterMap (enabledID table) := by
  rw [List.filterMap_eq_flatMap_toList] at hroom ⊢
  exact RecordWalk.foldl_collects ids _ (fun _ _ => ids_readRecord) hroom

theorem overrides_foldl
    (hroom : s.overrides.length + (records.filterMap (sourceOverride table)).length < 256) :
    (records.foldl (fun s apict => readRecord table apict s) s).overrides =
      s.overrides ++ (records.filterMap (sourceOverride table)).map some := by
  have hlength : ((records.filterMap (sourceOverride table)).map some).length =
      (records.filterMap (sourceOverride table)).length := List.length_map some
  rw [← hlength, List.map_filterMap, List.filterMap_eq_flatMap_toList] at hroom
  rw [List.map_filterMap, List.filterMap_eq_flatMap_toList]
  exact RecordWalk.foldl_collects overrides _ (fun _ _ => overrides_readRecord) hroom

theorem ioapicPtr_foldl (records : List Nat) (s : APIC) :
    (records.foldl (fun s apict => readRecord table apict s) s).ioapicPtr =
      lastOf (ioapicAddress table) records s.ioapicPtr := by
  induction records generalizing s with
  | nil => rfl
  | cons apict records ih => rw [List.foldl_cons, ih, ioapicPtr_readRecord, lastOf_cons]

theorem lapicPtr_foldl (records : List Nat) (s : APIC) :
    (records.foldl (fun s apict => readRecord table apict s) s).lapicPtr =
      lastOf (lapicAddress table) records s.lapicPtr := by
  induction records generalizing s with
  | nil => rfl
  | cons apict records ih => rw [List.foldl_cons, ih, lapicPtr_readRecord, lastOf_cons]

/-! ## Tables whose records tile them -/

theorem readRecords_of_visits {length : Nat} (h : RecordWalk.Visits (recordLength table) length
    0x2C records) (s : APIC) :
    readRecords table length s =
      some (records.foldl (fun s apict => readRecord table apict s) (s.touch 4 4)) :=
  h.walk_eq (by omega)

/-- A table that its records tile is read as they say. -/
theorem readAPIC_describes (table : ByteMemory) (records : List Nat)
    (htiles : Tiles table (MADTHeader.ofMemory table).length.toNat 0x2C records)
    (hprocessors : (records.filterMap (enabledID table)).length ≤ 255)
    (hoverrides : (records.filterMap (sourceOverride table)).length ≤ 255) :
    ∃ s, readAPIC (some table) initial = some s ∧ s.Describes table records := by
  refine ⟨_, readRecords_of_visits htiles.visits _, ?_, ?_, ?_, ?_⟩
  · rw [ids_foldl]
    · rfl
    · change 0 + _ < 256
      omega
  · rw [overrides_foldl]
    · rfl
    · change 0 + _ < 256
      omega
  · rw [ioapicPtr_foldl]
    rfl
  · rw [lapicPtr_foldl]
    rfl

end APIC

def smallMADT : ByteMemory := fun p =>
  (List.replicate 4 0 ++ [0x4A, 0, 0, 0] ++ List.replicate 28 0 ++ [0, 0, 0xE0, 0xFE, 1, 0, 0, 0] ++
    [0, 8, 0, 3, 1, 0, 0, 0] ++ [1, 12, 2, 0, 0, 0, 0xC0, 0xFE, 0, 0, 0, 0] ++
    [2, 10, 0, 0, 2, 0, 0, 0, 0, 0]).getD p 0

theorem tiles_smallMADT :
    Tiles smallMADT (MADTHeader.ofMemory smallMADT).length.toNat 0x2C [0x2C, 0x34, 0x40] := by
  have hprocessor : 0x2C + recordLength smallMADT 0x2C = 0x34 := by decide
  have hioapic : 0x34 + recordLength smallMADT 0x34 = 0x40 := by decide
  have hoverride : 0x40 + recordLength smallMADT 0x40 =
      (MADTHeader.ofMemory smallMADT).length.toNat := by decide
  refine .cons (by decide) ?_
  rw [hprocessor]
  refine .cons (by decide) ?_
  rw [hioapic]
  refine .cons (by decide) ?_
  rw [hoverride]
  exact .nil

theorem readAPIC_describes_smallMADT :
    ∃ s, APIC.readAPIC (some smallMADT) APIC.initial = some s ∧
      s.Describes smallMADT [0x2C, 0x34, 0x40] :=
  APIC.readAPIC_describes smallMADT [0x2C, 0x34, 0x40] tiles_smallMADT (by decide) (by decide)

end UnifiedOS.Devices
