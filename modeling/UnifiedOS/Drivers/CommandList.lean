import Mathlib.Tactic.IntervalCases
import UnifiedOS.Drivers.AHCIPort
import UnifiedOS.Foundation.ByteMemory
import UnifiedOS.Foundation.MachineInt
import UnifiedOS.Foundation.TransitionSystem

/-!
# The command list in memory

A port's commands lie in memory: `Configure` gives the port a list of command headers
and each header a table, and the driver fills the first header and its table before it
issues the command.  The driver forms addresses from the low halves of the registers
and of the header, the controller from both halves.
-/

namespace UnifiedOS.Drivers.AHCI

open UnifiedOS.Foundation

structure HBAPort where
  commandListBase : BitVec 32
  commandListBaseUpper : BitVec 32
  fisBaseAddress : BitVec 32
  fisBaseAddressUpper : BitVec 32

namespace HBAPort

/-- Where the driver takes the first header to be. -/
def cmdHeader (port : HBAPort) : Nat := port.commandListBase.toNat

/-- Where `Configure` and the controller take it to be. -/
def commandList (port : HBAPort) : Nat :=
  port.commandListBase.toNat + 2 ^ 32 * port.commandListBaseUpper.toNat

end HBAPort

def sizeofHeader : Nat := 32
def sizeofTable : Nat := 0x80
def sizeofEntry : Nat := 16

/-- A store to a bit-field: the bits of `mask` become those of `value`. -/
def setField {w : Nat} (old mask value : BitVec w) : BitVec w := (old &&& ~~~mask) ||| value

def configureHeaders (tables : Nat → Nat) (cmdHeader : Nat) : Nat → Nat → ByteMemory → ByteMemory
  | 0, _, m => m
  | remaining + 1, i, m =>
      let header := cmdHeader + sizeofHeader * i
      let m := m.store (header + 2) 2 8
      let address := wrap64 (tables i + i <<< 8)
      let m := m.store (header + 8) 4 address
      let m := m.store (header + 12) 4 (address >>> 32)
      let m := m.fill (tables i) 256 0
      configureHeaders tables cmdHeader remaining (i + 1) m

/-- `AHCIPort::Configure`, given the pages its requests return. -/
def configure (newBase fisBase : Nat) (tables : Nat → Nat) (m : ByteMemory) :
    HBAPort × ByteMemory :=
  let port : HBAPort :=
    { commandListBase := BitVec.ofNat 32 newBase
      commandListBaseUpper := BitVec.ofNat 32 (newBase >>> 32)
      fisBaseAddress := BitVec.ofNat 32 fisBase
      fisBaseAddressUpper := BitVec.ofNat 32 (fisBase >>> 32) }
  let m := m.fill port.commandListBase.toNat 1024 0
  let m := m.fill fisBase 256 0
  (port, configureHeaders tables port.commandList 32 0 m)

def fillHeader (cmdHeader : Nat) (write : BitVec 1) (m : ByteMemory) : ByteMemory :=
  let m := m.poke cmdHeader (setField (m cmdHeader) 0x1F 5)
  let m := m.poke cmdHeader (setField (m cmdHeader) 0x40 (write.setWidth 8 <<< 6))
  m.store (cmdHeader + 2) 2 1

def fillEntry (entry : Nat) (count buffer : BitVec 64) (m : ByteMemory) : ByteMemory :=
  let m := m.store entry 4 (buffer.setWidth 32).toNat
  let m := m.store (entry + 4) 4 ((buffer >>> 32).setWidth 32).toNat
  let bits := BitVec.ofNat 32 (m.load (entry + 12) 4)
  let bits := setField bits 0x3FFFFF ((((count <<< 9) - 1).setWidth 22).setWidth 32)
  let m := m.store (entry + 12) 4 bits.toNat
  let bits := BitVec.ofNat 32 (m.load (entry + 12) 4)
  m.store (entry + 12) 4 (setField bits 0x80000000 0x80000000).toNat

def fillFIS (cmdFIS : Nat) (command : BitVec 8) (lba count : BitVec 64) (m : ByteMemory) :
    ByteMemory :=
  let sectorL := lba.setWidth 32
  let sectorH := (lba >>> 32).setWidth 32
  let m := m.poke cmdFIS FIS_TYPE_REG_H2D
  let m := m.poke (cmdFIS + 1) (setField (m (cmdFIS + 1)) 0x80 0x80)
  let m := m.poke (cmdFIS + 2) command
  let m := m.poke (cmdFIS + 4) (sectorL.setWidth 8)
  let m := m.poke (cmdFIS + 5) ((sectorL >>> 8).setWidth 8)
  let m := m.poke (cmdFIS + 6) ((sectorL >>> 16).setWidth 8)
  let m := m.poke (cmdFIS + 8) (sectorH.setWidth 8)
  let m := m.poke (cmdFIS + 9) ((sectorH >>> 8).setWidth 8)
  let m := m.poke (cmdFIS + 10) ((sectorH >>> 16).setWidth 8)
  let m := m.poke (cmdFIS + 7) (1 <<< 6)
  let m := m.poke (cmdFIS + 12) ((count &&& 0xFF).setWidth 8)
  m.poke (cmdFIS + 13) (((count >>> 8) &&& 0xFF).setWidth 8)

/-- The stores of `ReadDiskBlock` and `WriteDiskBlock` before the command is issued. -/
def fillSlot (port : HBAPort) (write : BitVec 1) (command : BitVec 8) (lba count buffer : BitVec 64)
    (m : ByteMemory) : ByteMemory :=
  let m := fillHeader port.cmdHeader write m
  let commandTable := m.load (port.cmdHeader + 8) 4
  let prdtLength := m.load (port.cmdHeader + 2) 2
  let m := m.fill commandTable (sizeofTable + (prdtLength - 1) * sizeofEntry) 0
  let m := fillEntry (commandTable + sizeofTable) count buffer m
  fillFIS commandTable command lba count m

/-! ## What the controller fetches -/

def tableOf (m : ByteMemory) (header : Nat) : Nat :=
  m.load (header + 8) 4 + 2 ^ 32 * m.load (header + 12) 4

def fetchEntry (m : ByteMemory) (entry : Nat) : HBAPRDTEntry :=
  let bits := BitVec.ofNat 32 (m.load (entry + 12) 4)
  { dataBaseAddress := BitVec.ofNat 32 (m.load entry 4)
    dataBaseAddressUpper := BitVec.ofNat 32 (m.load (entry + 4) 4)
    byteCount := bits.setWidth 22
    interruptOnCompletion := (bits >>> 31).setWidth 1 }

def fetchFIS (m : ByteMemory) (fis : Nat) : FISRegH2D :=
  { fisType := m fis
    commandControl := (m (fis + 1) >>> 7).setWidth 1
    command := m (fis + 2)
    lba0 := m (fis + 4)
    lba1 := m (fis + 5)
    lba2 := m (fis + 6)
    deviceRegister := m (fis + 7)
    lba3 := m (fis + 8)
    lba4 := m (fis + 9)
    lba5 := m (fis + 10)
    countLow := m (fis + 12)
    countHigh := m (fis + 13) }

def fetchSlot (m : ByteMemory) (header : Nat) : HBACommand :=
  { commandFISLength := (m header).setWidth 5
    write := (m header >>> 6).setWidth 1
    prdtLength := BitVec.ofNat 16 (m.load (header + 2) 2)
    prdtEntry := fetchEntry m (tableOf m header + sizeofTable)
    commandFIS := fetchFIS m (tableOf m header) }

/-! ## Reading the slot back -/

section Fields

variable {m m' : ByteMemory} {header entry cmdFIS x : Nat} {write : BitVec 1}
  {command : BitVec 8} {lba count buffer : BitVec 64}

theorem setField_entry (old : BitVec 32) (value : BitVec 22) :
    (setField (setField old 0x3FFFFF (value.setWidth 32)) 0x80000000 0x80000000).setWidth 22 =
        value ∧
      (setField (setField old 0x3FFFFF (value.setWidth 32)) 0x80000000 0x80000000 >>> 31).setWidth
        1 = 1#1 := by
  constructor
  · apply BitVec.eq_of_getLsbD_eq
    intro i hi
    interval_cases i <;> simp [setField]
  · apply BitVec.eq_of_getLsbD_eq
    intro i hi
    interval_cases i
    simp [setField]

theorem setField_header (old : Byte) (write : BitVec 1) :
    (setField (setField old 0x1F 5) 0x40 (write.setWidth 8 <<< 6)).setWidth 5 = 5#5 ∧
      (setField (setField old 0x1F 5) 0x40 (write.setWidth 8 <<< 6) >>> 6).setWidth 1 = write := by
  constructor
  · apply BitVec.eq_of_getLsbD_eq
    intro i hi
    interval_cases i <;> simp [setField]
  · apply BitVec.eq_of_getLsbD_eq
    intro i hi
    interval_cases i
    simp [setField]

theorem fillHeader_outside (h : x < header ∨ header + 4 ≤ x) :
    fillHeader header write m x = m x := by
  have hne : x ≠ header := by omega
  simp only [fillHeader]
  rw [ByteMemory.store_outside _ (by omega), ByteMemory.poke_other _ _ hne,
    ByteMemory.poke_other _ _ hne]

theorem fillEntry_outside (h : x < entry ∨ entry + 16 ≤ x) :
    fillEntry entry count buffer m x = m x := by
  simp only [fillEntry]
  repeat rw [ByteMemory.store_outside _ (by omega)]

theorem fillFIS_outside (h : x < cmdFIS ∨ cmdFIS + 14 ≤ x) :
    fillFIS cmdFIS command lba count m x = m x := by
  simp only [fillFIS]
  repeat rw [ByteMemory.poke_other _ _ (by omega)]

theorem fetchFIS_fillFIS (hclear : m (cmdFIS + 1) = 0) :
    fetchFIS (fillFIS cmdFIS command lba count m) cmdFIS =
      (buildCommand write command lba count buffer).commandFIS := by
  simp [fetchFIS, fillFIS, buildCommand, ByteMemory.poke, hclear]
  decide

theorem fetchEntry_fillEntry :
    fetchEntry (fillEntry entry count buffer m) entry =
      (buildCommand write command lba count buffer).prdtEntry := by
  have hword : ∀ word : BitVec 32, BitVec.ofNat 32 (word.toNat % 256 ^ 4) = word := fun word => by
    rw [Nat.mod_eq_of_lt (lt_of_lt_of_eq word.isLt (by norm_num)), BitVec.ofNat_toNat,
      BitVec.setWidth_eq]
  simp only [fetchEntry, fillEntry, buildCommand]
  rw [ByteMemory.load_store_same, ByteMemory.load_store_same]
  rw [ByteMemory.load_store_disjoint _ (by omega), ByteMemory.load_store_disjoint _ (by omega),
    ByteMemory.load_store_disjoint _ (by omega), ByteMemory.load_store_same]
  rw [ByteMemory.load_store_disjoint _ (by omega), ByteMemory.load_store_disjoint _ (by omega),
    ByteMemory.load_store_same]
  simp only [hword]
  rw [(setField_entry _ _).1, (setField_entry _ _).2]
  rfl

theorem fetchEntry_congr (h : ∀ x, entry ≤ x → x < entry + 16 → m x = m' x) :
    fetchEntry m entry = fetchEntry m' entry := by
  simp only [fetchEntry]
  rw [ByteMemory.load_congr fun x hlo hhi => h x hlo (by omega),
    ByteMemory.load_congr fun x hlo hhi => h x (by omega) (by omega),
    ByteMemory.load_congr fun x hlo hhi => h x (by omega) (by omega)]

theorem tableOf_congr (h : ∀ x, header + 8 ≤ x → x < header + 16 → m x = m' x) :
    tableOf m header = tableOf m' header := by
  simp only [tableOf]
  rw [ByteMemory.load_congr fun x hlo hhi => h x hlo (by omega),
    ByteMemory.load_congr fun x hlo hhi => h x (by omega) (by omega)]

end Fields

section Slot

variable {port : HBAPort} {m : ByteMemory} {x : Nat} {write : BitVec 1} {command : BitVec 8}
  {lba count buffer : BitVec 64}

def driverTable (m : ByteMemory) (port : HBAPort) : Nat := m.load (port.cmdHeader + 8) 4

theorem fillSlot_eq : fillSlot port write command lba count buffer m =
    fillFIS (driverTable m port) command lba count
      (fillEntry (driverTable m port + sizeofTable) count buffer
        ((fillHeader port.cmdHeader write m).fill (driverTable m port) sizeofTable 0)) := by
  have htable : (fillHeader port.cmdHeader write m).load (port.cmdHeader + 8) 4 =
      driverTable m port :=
    ByteMemory.load_congr fun x hlo hhi => fillHeader_outside (by omega)
  have hone : (fillHeader port.cmdHeader write m).load (port.cmdHeader + 2) 2 = 1 := by
    rw [fillHeader]
    exact ByteMemory.load_store_same _ _ _ _
  simp only [fillSlot, htable, hone, Nat.sub_self, Nat.zero_mul, Nat.add_zero]

theorem fillSlot_outside (hheader : x < port.cmdHeader ∨ port.cmdHeader + 4 ≤ x)
    (htable : x < driverTable m port ∨ driverTable m port + 0x90 ≤ x) :
    fillSlot port write command lba count buffer m x = m x := by
  rw [fillSlot_eq, fillFIS_outside (by omega), fillEntry_outside (by unfold sizeofTable; omega),
    ByteMemory.fill_outside _ (by unfold sizeofTable; omega), fillHeader_outside hheader]

/-- What is filled in through the header's table is what the controller fetches from there. -/
theorem fetchSlot_fillSlot (htable : tableOf m port.cmdHeader = driverTable m port)
    (happart : driverTable m port + 0x90 ≤ port.cmdHeader ∨
      port.cmdHeader + sizeofHeader ≤ driverTable m port) :
    fetchSlot (fillSlot port write command lba count buffer m) port.cmdHeader =
      buildCommand write command lba count buffer := by
  have hsize : sizeofTable = 0x80 := rfl
  have hheader : sizeofHeader = 32 := rfl
  have hsame : tableOf (fillSlot port write command lba count buffer m) port.cmdHeader =
      driverTable m port := by
    rw [← htable]
    exact tableOf_congr fun x hlo hhi => fillSlot_outside (by omega) (by omega)
  have hkept : ∀ x, port.cmdHeader ≤ x → x < port.cmdHeader + sizeofHeader →
      fillSlot port write command lba count buffer m x = fillHeader port.cmdHeader write m x := by
    intro x hlo hhi
    rw [fillSlot_eq, fillFIS_outside (by omega), fillEntry_outside (by omega),
      ByteMemory.fill_outside _ (by omega)]
  have hfirst := hkept port.cmdHeader (le_refl _) (by omega)
  have hlength : (fillSlot port write command lba count buffer m).load (port.cmdHeader + 2) 2 =
      1 := by
    rw [ByteMemory.load_congr fun x hlo hhi => hkept x (by omega) (by omega), fillHeader]
    exact ByteMemory.load_store_same _ _ _ _
  have hentry : fetchEntry (fillSlot port write command lba count buffer m)
      (driverTable m port + sizeofTable) =
        (buildCommand write command lba count buffer).prdtEntry := by
    rw [fillSlot_eq, fetchEntry_congr fun x hlo hhi => fillFIS_outside (by omega)]
    exact fetchEntry_fillEntry
  have hfis : fetchFIS (fillSlot port write command lba count buffer m) (driverTable m port) =
      (buildCommand write command lba count buffer).commandFIS := by
    rw [fillSlot_eq]
    apply fetchFIS_fillFIS
    rw [fillEntry_outside (by omega), ByteMemory.fill, if_pos (by omega)]
  have hbits : fillHeader port.cmdHeader write m port.cmdHeader =
      setField (setField (m port.cmdHeader) 0x1F 5) 0x40 (write.setWidth 8 <<< 6) := by
    simp only [fillHeader]
    rw [ByteMemory.store_outside _ (by omega), ByteMemory.poke_same, ByteMemory.poke_same]
  rw [fetchSlot, hsame, hfirst, hlength, hentry, hfis, hbits, (setField_header _ _).1,
    (setField_header _ _).2]
  rfl

end Slot

/-! ## What `Configure` leaves -/

/-- The pages that the requests of `Configure` return, as the allocator grants them. -/
structure Granted (newBase fisBase : Nat) (tables : Nat → Nat) : Prop where
  list : newBase % 0x1000 = 0 ∧ newBase < 2 ^ 52
  fis : fisBase % 0x1000 = 0 ∧ fisBase ≠ newBase
  table : ∀ i < 32, tables i % 0x1000 = 0 ∧ tables i < 2 ^ 52 ∧ tables i ≠ newBase

section Configure

variable {tables : Nat → Nat} {cmdHeader newBase fisBase i n x : Nat} {m : ByteMemory}

theorem configureHeaders_outside
    (hheader : x < cmdHeader + sizeofHeader * i ∨ cmdHeader + sizeofHeader * (i + n) ≤ x)
    (htable : ∀ j, i ≤ j → j < i + n → x < tables j ∨ tables j + 256 ≤ x) :
    configureHeaders tables cmdHeader n i m x = m x := by
  unfold sizeofHeader at hheader
  induction n generalizing i m with
  | zero => rfl
  | succ n ih =>
      rw [configureHeaders, ih (by omega) fun j hlo hhi => htable j (by omega) (by omega)]
      have hown := htable i (le_refl _) (by omega)
      unfold sizeofHeader
      rw [ByteMemory.fill_outside _ hown, ByteMemory.store_outside _ (by omega),
        ByteMemory.store_outside _ (by omega), ByteMemory.store_outside _ (by omega)]

theorem configureHeaders_cleared (hclear : m x = 0)
    (hheader : x < cmdHeader + sizeofHeader * i ∨ cmdHeader + sizeofHeader * (i + n) ≤ x) :
    configureHeaders tables cmdHeader n i m x = 0 := by
  unfold sizeofHeader at hheader
  induction n generalizing i m with
  | zero => exact hclear
  | succ n ih =>
      rw [configureHeaders]
      apply ih _ (by omega)
      unfold sizeofHeader
      rw [ByteMemory.fill]
      split
      · rfl
      · rw [ByteMemory.store_outside _ (by omega), ByteMemory.store_outside _ (by omega),
          ByteMemory.store_outside _ (by omega), hclear]

theorem configureHeaders_header (h : ∀ j, i ≤ j → j < i + n → tables j < 2 ^ 52 ∧
      (tables j + 256 ≤ cmdHeader ∨ cmdHeader + 1024 ≤ tables j)) (hlast : i + n ≤ 32)
    {j : Nat} (hlo : i ≤ j) (hhi : j < i + n) :
    tableOf (configureHeaders tables cmdHeader n i m) (cmdHeader + sizeofHeader * j) =
        tables j + 256 * j ∧
      (configureHeaders tables cmdHeader n i m).load (cmdHeader + sizeofHeader * j + 2) 2 = 8 := by
  have hsize : sizeofHeader = 32 := rfl
  induction n generalizing i m with
  | zero => omega
  | succ n ih =>
      rw [configureHeaders]
      rcases Nat.lt_or_ge i j with hlater | hfirst
      · exact ih (fun k hk hk' => h k (by omega) (by omega)) (by omega) (by omega) (by omega)
      · obtain rfl : j = i := by omega
        obtain ⟨hlow, happart⟩ := h j (le_refl _) (by omega)
        have haddress : wrap64 (tables j + j <<< 8) = tables j + 256 * j := by
          rw [Nat.shiftLeft_eq, wrap64_of_lt (by omega), Nat.mul_comm j]
        have hrest : ∀ m' x, cmdHeader + sizeofHeader * j ≤ x →
            x < cmdHeader + sizeofHeader * j + sizeofHeader →
            configureHeaders tables cmdHeader n (j + 1) m' x = m' x := by
          intro m' x hlo hhi
          apply configureHeaders_outside
          · left
            rw [Nat.mul_succ]
            omega
          · intro k hk hk'
            have := (h k (by omega) (by omega)).2
            rw [hsize] at hlo hhi
            omega
        rw [hsize] at hrest ⊢
        rw [tableOf_congr fun x hlo hhi => hrest _ x (by omega) (by omega),
          ByteMemory.load_congr fun x hlo hhi => hrest _ x (by omega) (by omega)]
        rw [haddress, tableOf]
        have hinside :
            tables j + 256 ≤ cmdHeader + 32 * j ∨ cmdHeader + 32 * j + 32 ≤ tables j := by
          omega
        generalize cmdHeader + 32 * j = header at *
        rw [ByteMemory.load_fill_disjoint _ (by omega), ByteMemory.load_fill_disjoint _ (by omega),
          ByteMemory.load_fill_disjoint _ (by omega), ByteMemory.load_store_same,
          ByteMemory.load_store_disjoint _ (by omega), ByteMemory.load_store_same,
          ByteMemory.load_store_disjoint _ (by omega), ByteMemory.load_store_disjoint _ (by omega),
          ByteMemory.load_store_same, Nat.shiftRight_eq_div_pow]
        norm_num
        omega

theorem configure_port (hbase : newBase < 2 ^ 64) :
    (configure newBase fisBase tables m).1.cmdHeader = newBase % 2 ^ 32 ∧
      (configure newBase fisBase tables m).1.commandList = newBase := by
  simp only [configure, HBAPort.cmdHeader, HBAPort.commandList, BitVec.toNat_ofNat,
    Nat.shiftRight_eq_div_pow]
  exact ⟨trivial, by omega⟩

/-- Of the 32 headers each leads to a page of its own, and past it from the sixteenth on. -/
theorem configure_header (h : Granted newBase fisBase tables) (hi : i < 32) :
    tableOf (configure newBase fisBase tables m).2 (newBase + sizeofHeader * i) =
        tables i + 256 * i ∧
      (configure newBase fisBase tables m).2.load (newBase + sizeofHeader * i + 2) 2 = 8 := by
  obtain ⟨haligned, hlt⟩ := h.list
  have hport := (@configure_port tables newBase fisBase m (by omega)).2
  unfold configure at hport ⊢
  dsimp only at hport ⊢
  rw [hport]
  refine configureHeaders_header (fun j _ hj => ?_) (by omega) (Nat.zero_le _) (by omega)
  obtain ⟨htable, hlow, hne⟩ := h.table j (by omega)
  exact ⟨hlow, by omega⟩

variable {write : BitVec 1} {command : BitVec 8} {lba count buffer : BitVec 64}

/-- The driver's header is cleared with the list if the list lies above 4 GiB. -/
theorem configure_cleared (h : Granted newBase fisBase tables) (hhigh : 2 ^ 32 ≤ newBase)
    (hx : newBase % 2 ^ 32 ≤ x ∧ x < newBase % 2 ^ 32 + 1024) :
    (configure newBase fisBase tables m).2 x = 0 := by
  obtain ⟨haligned, hlt⟩ := h.list
  obtain ⟨hheader, hlist⟩ := @configure_port tables newBase fisBase m (by omega)
  unfold configure at hheader hlist ⊢
  dsimp only [HBAPort.cmdHeader] at hheader hlist ⊢
  rw [hlist, hheader]
  apply configureHeaders_cleared _ (by omega)
  rw [ByteMemory.fill]
  split
  · rfl
  · rw [ByteMemory.fill, if_pos hx]

theorem configure_table (h : Granted newBase fisBase tables) :
    (configure newBase fisBase tables m).2 (tables 0) = 0 := by
  obtain ⟨haligned, hlt⟩ := h.list
  obtain ⟨htable, hlow, hne⟩ := h.table 0 (by decide)
  have hlist := (@configure_port tables newBase fisBase m (by omega)).2
  unfold configure at hlist ⊢
  dsimp only at hlist ⊢
  rw [hlist, configureHeaders]
  have hsize : sizeofHeader = 32 := rfl
  apply configureHeaders_cleared _ (by omega)
  rw [ByteMemory.fill, if_pos (by omega)]

variable {write : BitVec 1} {command : BitVec 8} {lba count buffer : BitVec 64}

/--
The first command after `Configure` is fetched as it was built exactly if the command
list and the first table lie below 4 GiB.
-/
theorem command_fetched_iff (h : Granted newBase fisBase tables) :
    fetchSlot
        (fillSlot (configure newBase fisBase tables m).1 write command lba count buffer
          (configure newBase fisBase tables m).2)
        (configure newBase fisBase tables m).1.commandList =
      buildCommand write command lba count buffer ↔
    newBase < 2 ^ 32 ∧ tables 0 < 2 ^ 32 := by
  have hsize : sizeofHeader = 32 := rfl
  obtain ⟨haligned, hlt⟩ := h.list
  obtain ⟨htable, hlow, hne⟩ := h.table 0 (by decide)
  obtain ⟨hheader, hlist⟩ := @configure_port tables newBase fisBase m (by omega)
  obtain ⟨hleads, hlength⟩ := @configure_header tables newBase fisBase 0 m h (by decide)
  rw [Nat.mul_zero, Nat.add_zero, Nat.add_zero] at hleads
  rw [Nat.mul_zero, Nat.add_zero] at hlength
  have hcleared := fun x => @configure_cleared tables newBase fisBase x m h
  have htableClear := @configure_table tables newBase fisBase m h
  rw [hlist]
  generalize (configure newBase fisBase tables m).1 = port at *
  set m' := (configure newBase fisBase tables m).2
  constructor
  · intro hfetched
    by_contra hhigh
    rcases Nat.lt_or_ge newBase (2 ^ 32) with hbase | hbase
    · have hdriver : driverTable m' port = tables 0 % 2 ^ 32 := by
        rw [driverTable, hheader, Nat.mod_eq_of_lt hbase, ← hleads, tableOf]
        have hlt := m'.load_lt (newBase + 8) 4
        norm_num at hlt ⊢
        omega
      have hnext : 2 ^ 32 ≤ tables 0 := by omega
      by_cases hsame : tables 0 % 2 ^ 32 = newBase
      · -- the table overwrites the list
        have hlength := congrArg HBACommand.commandFISLength hfetched
        rw [fillSlot_eq, hdriver, hsame] at hlength
        simp [fetchSlot, fillFIS, ByteMemory.poke, buildCommand, FIS_TYPE_REG_H2D] at hlength
      · -- the driver fills a table that the controller never sees
        have htype := congrArg (·.commandFIS.fisType) hfetched
        have hkept : tableOf (fillSlot port write command lba count buffer m') newBase =
            tables 0 := by
          rw [← hleads]
          exact tableOf_congr fun x hlo hhi => fillSlot_outside (by omega) (by omega)
        dsimp only [fetchSlot, fetchFIS] at htype
        rw [hkept, fillSlot_outside (by omega) (by omega), htableClear] at htype
        exact absurd htype (by simp [buildCommand, FIS_TYPE_REG_H2D])
    · -- the driver fills a header that the controller never sees
      have hdriver : driverTable m' port = 0 := by
        rw [driverTable, hheader, ByteMemory.load_congr fun x hlo hhi => ?_]
        · exact m'.load_fill_zero (le_refl _) (le_refl _)
        · rw [ByteMemory.fill, if_pos ⟨hlo, hhi⟩]
          exact hcleared x hbase ⟨by omega, by omega⟩
      have hprdt := congrArg HBACommand.prdtLength hfetched
      dsimp only [fetchSlot] at hprdt
      rw [ByteMemory.load_congr fun x hlo hhi => fillSlot_outside (by omega) (by omega),
        hlength] at hprdt
      exact absurd hprdt (by simp [buildCommand])
  · rintro ⟨hbase, htableLow⟩
    have hdriver : driverTable m' port = tables 0 := by
      have hlt := m'.load_lt (newBase + 8) 4
      rw [tableOf] at hleads
      rw [driverTable, hheader, Nat.mod_eq_of_lt hbase]
      norm_num at hlt
      omega
    rw [Nat.mod_eq_of_lt hbase] at hheader
    have hbuilt := @fetchSlot_fillSlot port m' write command lba count buffer
      (by rw [hheader, hleads, hdriver]) (by rw [hdriver, hheader]; omega)
    rwa [hheader] at hbuilt

/-- The same command below 4 GiB and with the list one page higher than that. -/
theorem command_fetched_low :
    (fetchSlot (fillSlot (configure 0x3000 0x4000 (0x5000 + 0x1000 * ·) fun _ => 0).1 0
        ATA_CMD_READ_DMA_EX 5 1 0x9000 (configure 0x3000 0x4000 (0x5000 + 0x1000 * ·) fun _ => 0).2)
      (configure 0x3000 0x4000 (0x5000 + 0x1000 * ·) fun _ => 0).1.commandList =
        buildCommand 0 ATA_CMD_READ_DMA_EX 5 1 0x9000) ∧
    fetchSlot (fillSlot (configure 0x100001000 0x4000 (0x5000 + 0x1000 * ·) fun _ => 0).1 0
        ATA_CMD_READ_DMA_EX 5 1 0x9000
        (configure 0x100001000 0x4000 (0x5000 + 0x1000 * ·) fun _ => 0).2)
      (configure 0x100001000 0x4000 (0x5000 + 0x1000 * ·) fun _ => 0).1.commandList ≠
        buildCommand 0 ATA_CMD_READ_DMA_EX 5 1 0x9000 := by
  have hlow : Granted 0x3000 0x4000 (0x5000 + 0x1000 * ·) :=
    ⟨by decide, by decide, fun i hi => ⟨by omega, by omega, by omega⟩⟩
  have hhigh : Granted 0x100001000 0x4000 (0x5000 + 0x1000 * ·) :=
    ⟨by decide, by decide, fun i hi => ⟨by omega, by omega, by omega⟩⟩
  refine ⟨(command_fetched_iff hlow).mpr (by decide), fun hfetched => ?_⟩
  exact absurd ((command_fetched_iff hhigh).mp hfetched).1 (by decide)

end Configure

/-! ## Ports and the rest of the kernel in one memory -/

/-- Memory, and of each port whether it is configured and what it was told last. -/
structure PortsRun (Port : Type*) where
  mem : ByteMemory
  configured : Port → Bool
  built : Port → Option HBACommand

section Ports

variable {Port : Type*} {pages : Port → Nat → Nat}

def InSlots (pages : Port → Nat → Nat) (port : Port) (x : Nat) : Prop :=
  (pages port 0 ≤ x ∧ x < pages port 0 + 1024) ∨
    (pages port 2 ≤ x ∧ x < pages port 2 + 0x90)

def registersOf (pages : Nat → Nat) : HBAPort :=
  (configure (pages 0) (pages 1) (fun i => pages (i + 2)) fun _ => 0).1

/--
A port is configured or gets a command; its controller counts bytes transferred in the
header; or someone else, whoever it is, writes outside the slots of the ports.
-/
inductive PortsStep [DecidableEq Port] (pages : Port → Nat → Nat) :
    PortsRun Port → PortsRun Port → Prop where
  | configure (s : PortsRun Port) (port : Port) :
      PortsStep pages s
        ⟨(configure (pages port 0) (pages port 1) (fun i => pages port (i + 2)) s.mem).2,
          Function.update s.configured port true, Function.update s.built port none⟩
  | command (s : PortsRun Port) (port : Port) (hconfigured : s.configured port = true)
      (write : BitVec 1) (command : BitVec 8) (lba count buffer : BitVec 64) :
      PortsStep pages s
        ⟨fillSlot (registersOf (pages port)) write command lba count buffer s.mem, s.configured,
          Function.update s.built port (some (buildCommand write command lba count buffer))⟩
  | transferred (s : PortsRun Port) (port : Port) (count : Nat) :
      PortsStep pages s ⟨s.mem.store (pages port 0 + 4) 4 count, s.configured, s.built⟩
  | elsewhere (s : PortsRun Port) (mem : ByteMemory)
      (houtside : ∀ port x, s.configured port = true → InSlots pages port x → mem x = s.mem x) :
      PortsStep pages s ⟨mem, s.configured, s.built⟩

structure PagesGranted (pages : Port → Nat → Nat) : Prop where
  page : ∀ port k, k < 34 → pages port k % 0x1000 = 0 ∧ pages port k < 2 ^ 32
  apart : ∀ port port' k k', k < 34 → k' < 34 → pages port k = pages port' k' →
    port = port' ∧ k = k'

/-- A configured port's first header leads to its table, and its last command is in the slot. -/
structure SlotsInv (pages : Port → Nat → Nat) (s : PortsRun Port) : Prop where
  table : ∀ port, s.configured port = true → tableOf s.mem (pages port 0) = pages port 2
  fetched : ∀ port command, s.built port = some command →
    s.configured port = true ∧ fetchSlot s.mem (pages port 0) = command

variable {s s' : PortsRun Port} {port port' : Port} {mem : ByteMemory} {x : Nat}
  {write : BitVec 1} {command : BitVec 8} {lba count buffer : BitVec 64}

theorem PagesGranted.granted (h : PagesGranted pages) (port : Port) :
    Granted (pages port 0) (pages port 1) fun i => pages port (i + 2) := by
  have happart : ∀ k, k < 34 → k ≠ 0 → pages port k ≠ pages port 0 := fun k hk hne hsame =>
    hne (h.apart port port k 0 hk (by decide) hsame).2
  obtain ⟨hlist, hlow⟩ := h.page port 0 (by decide)
  refine ⟨⟨hlist, by omega⟩, ⟨(h.page port 1 (by decide)).1, happart 1 (by decide) (by decide)⟩,
    fun i hi => ?_⟩
  obtain ⟨htable, htableLow⟩ := h.page port (i + 2) (by omega)
  exact ⟨htable, by omega, happart _ (by omega) (by omega)⟩

theorem PagesGranted.outside (h : PagesGranted pages) {k : Nat} (hk : k < 34)
    (hne : port' ≠ port ∨ (k ≠ 0 ∧ k ≠ 2)) (hx : InSlots pages port x) :
    x < pages port' k ∨ pages port' k + 0x1000 ≤ x := by
  have hpage := (h.page port' k hk).1
  have hlist := (h.page port 0 (by decide)).1
  have htable := (h.page port 2 (by decide)).1
  have hapart : ∀ l, l < 34 → (l = 0 ∨ l = 2) → pages port' k ≠ pages port l := by
    intro l hl hslot hsame
    obtain ⟨rfl, rfl⟩ := h.apart port' port k l hk hl hsame
    rcases hne with hne | hne
    · exact hne rfl
    · omega
  have hfirst := hapart 0 (by decide) (Or.inl rfl)
  have hsecond := hapart 2 (by decide) (Or.inr rfl)
  unfold InSlots at hx
  omega

theorem fetchSlot_congr {m m' : ByteMemory} {header table : Nat}
    (htable : tableOf m header = table)
    (hheader : ∀ x, header ≤ x → x < header + 32 → x < header + 4 ∨ header + 8 ≤ x → m' x = m x)
    (hbody : ∀ x, table ≤ x → x < table + 0x90 → m' x = m x) :
    tableOf m' header = table ∧ fetchSlot m' header = fetchSlot m header := by
  have hsame : tableOf m' header = table :=
    (tableOf_congr fun x hlo hhi => hheader x (by omega) (by omega) (by omega)).trans htable
  have hsize : sizeofTable = 0x80 := rfl
  refine ⟨hsame, ?_⟩
  have hentry : fetchEntry m' (table + sizeofTable) = fetchEntry m (table + sizeofTable) :=
    fetchEntry_congr fun x hlo hhi => hbody x (by omega) (by omega)
  have hfis : fetchFIS m' table = fetchFIS m table := by
    have hbyte : ∀ k, k < 14 → m' (table + k) = m (table + k) := fun k hk =>
      hbody _ (Nat.le_add_right _ _) (by omega)
    have hfirst : m' table = m table := hbyte 0 (by decide)
    simp (disch := decide) only [fetchFIS, hfirst, hbyte]
  have hlength : m'.load (header + 2) 2 = m.load (header + 2) 2 :=
    ByteMemory.load_congr fun x hlo hhi => hheader x (by omega) (by omega) (by omega)
  rw [fetchSlot, fetchSlot, hsame, htable, hentry, hfis, hlength,
    hheader header (le_refl _) (by omega) (by omega)]

theorem SlotsInv.kept (hpages : PagesGranted pages) (h : SlotsInv pages s)
    (hconfigured : s.configured port = true)
    (hmem : ∀ x, InSlots pages port x → x < pages port 0 + 4 ∨ pages port 0 + 8 ≤ x →
      mem x = s.mem x) :
    tableOf mem (pages port 0) = pages port 2 ∧
      ∀ command, s.built port = some command → fetchSlot mem (pages port 0) = command := by
  have hlist := hpages.page port 0 (by decide)
  have hpage := hpages.page port 2 (by decide)
  have hne : pages port 0 ≠ pages port 2 := fun hsame =>
    absurd (hpages.apart port port 0 2 (by decide) (by decide) hsame).2 (by decide)
  obtain ⟨htable, hfetch⟩ := @fetchSlot_congr s.mem mem _ _ (h.table port hconfigured)
    (fun x hlo hhi hcount => hmem x (Or.inl ⟨hlo, by omega⟩) hcount)
    (fun x hlo hhi => hmem x (Or.inr ⟨hlo, hhi⟩) (by omega))
  exact ⟨htable, fun command hbuilt => hfetch.trans (h.fetched port command hbuilt).2⟩

theorem configure_outside {newBase fisBase : Nat} {tables : Nat → Nat}
    (hbase : newBase < 2 ^ 32) (hlist : x < newBase ∨ newBase + 1024 ≤ x)
    (hfis : x < fisBase ∨ fisBase + 256 ≤ x)
    (htable : ∀ i < 32, x < tables i ∨ tables i + 256 ≤ x) :
    (configure newBase fisBase tables mem).2 x = mem x := by
  have hsize : sizeofHeader = 32 := rfl
  obtain ⟨hheader, hcommandList⟩ := @configure_port tables newBase fisBase mem (by omega)
  unfold configure at hheader hcommandList ⊢
  dsimp only [HBAPort.cmdHeader] at hheader hcommandList ⊢
  rw [hcommandList, hheader, configureHeaders_outside (by omega)
    fun j _ hj => htable j (by omega), ByteMemory.fill_outside _ hfis,
    ByteMemory.fill_outside _ (by omega)]

theorem registersOf_cmdHeader (hpages : PagesGranted pages) (port : Port) :
    (registersOf (pages port)).cmdHeader = pages port 0 ∧
      (registersOf (pages port)).commandList = pages port 0 := by
  have hlow := (hpages.page port 0 (by decide)).2
  obtain ⟨hheader, hlist⟩ := @configure_port (fun i => pages port (i + 2)) (pages port 0)
    (pages port 1) (fun _ => 0) (by omega)
  rw [Nat.mod_eq_of_lt hlow] at hheader
  exact ⟨hheader, hlist⟩

theorem SlotsInv.elsewhere (hpages : PagesGranted pages) (h : SlotsInv pages s)
    (hmem : ∀ port x, s.configured port = true → InSlots pages port x →
      x < pages port 0 + 4 ∨ pages port 0 + 8 ≤ x → mem x = s.mem x) :
    SlotsInv pages ⟨mem, s.configured, s.built⟩ := by
  constructor
  · intro port hconfigured
    exact (h.kept hpages hconfigured fun x hx hcount => hmem port x hconfigured hx hcount).1
  · intro port command hbuilt
    have hconfigured := (h.fetched port command hbuilt).1
    exact ⟨hconfigured,
      (h.kept hpages hconfigured fun x hx hcount => hmem port x hconfigured hx hcount).2 command
        hbuilt⟩

variable [DecidableEq Port]

theorem SlotsInv.configure (hpages : PagesGranted pages) (h : SlotsInv pages s) (port : Port) :
    SlotsInv pages
      ⟨(configure (pages port 0) (pages port 1) (fun i => pages port (i + 2)) s.mem).2,
        Function.update s.configured port true, Function.update s.built port none⟩ := by
  have hgranted := hpages.granted port
  have hlow := (hpages.page port 0 (by decide)).2
  have hother : ∀ port', port' ≠ port → ∀ x, InSlots pages port' x →
      (AHCI.configure (pages port 0) (pages port 1) (fun i => pages port (i + 2)) s.mem).2 x =
        s.mem x := by
    intro port' hne x hx
    have hout : ∀ k, k < 34 → x < pages port k ∨ pages port k + 0x1000 ≤ x := fun k hk =>
      hpages.outside hk (Or.inl hne.symm) hx
    have hfirst := hout 0 (by decide)
    have hsecond := hout 1 (by decide)
    refine configure_outside hlow (by omega) (by omega) fun i hi => ?_
    have := hout (i + 2) (by omega)
    omega
  constructor
  · intro port' hconfigured
    by_cases hne : port' = port
    · subst hne
      have hleads := (@configure_header _ _ _ 0 s.mem hgranted (by decide)).1
      exact hleads
    · dsimp only at hconfigured ⊢
      rw [Function.update_of_ne hne] at hconfigured
      exact (h.kept hpages hconfigured fun x hx _ => hother port' hne x hx).1
  · intro port' command hbuilt
    dsimp only at hbuilt ⊢
    by_cases hne : port' = port
    · subst hne
      rw [Function.update_self] at hbuilt
      contradiction
    · rw [Function.update_of_ne hne] at hbuilt ⊢
      have hconfigured := (h.fetched port' command hbuilt).1
      exact ⟨hconfigured,
        (h.kept hpages hconfigured fun x hx _ => hother port' hne x hx).2 command hbuilt⟩

theorem SlotsInv.fill (hpages : PagesGranted pages) (h : SlotsInv pages s)
    (hconfigured : s.configured port = true) :
    SlotsInv pages
      ⟨fillSlot (registersOf (pages port)) write command lba count buffer s.mem, s.configured,
        Function.update s.built port (some (buildCommand write command lba count buffer))⟩ := by
  have hheader := (registersOf_cmdHeader hpages port).1
  have hleads := h.table port hconfigured
  have hlist := hpages.page port 0 (by decide)
  have hpage := hpages.page port 2 (by decide)
  have hdriver : driverTable s.mem (registersOf (pages port)) = pages port 2 := by
    have hlt := s.mem.load_lt (pages port 0 + 8) 4
    rw [tableOf] at hleads
    rw [driverTable, hheader]
    norm_num at hlt
    omega
  have hother : ∀ port', port' ≠ port → ∀ x, InSlots pages port' x →
      fillSlot (registersOf (pages port)) write command lba count buffer s.mem x = s.mem x := by
    intro port' hne x hx
    have hfirst := hpages.outside (k := 0) (by decide) (Or.inl hne.symm) hx
    have hsecond := hpages.outside (k := 2) (by decide) (Or.inl hne.symm) hx
    exact fillSlot_outside (by omega) (by omega)
  have hne : pages port 0 ≠ pages port 2 := fun hsame =>
    absurd (hpages.apart port port 0 2 (by decide) (by decide) hsame).2 (by decide)
  have hsize : sizeofHeader = 32 := rfl
  constructor
  · intro port' hconfigured'
    by_cases heq : port' = port
    · subst heq
      rw [← hleads]
      exact tableOf_congr fun x hlo hhi => fillSlot_outside (by omega) (by omega)
    · exact (h.kept hpages hconfigured' fun x hx _ => hother port' heq x hx).1
  · intro port' command' hbuilt
    dsimp only at hbuilt ⊢
    by_cases heq : port' = port
    · subst heq
      rw [Function.update_self, Option.some.injEq] at hbuilt
      refine ⟨hconfigured, ?_⟩
      rw [← hbuilt, ← hheader]
      exact fetchSlot_fillSlot (by rw [hheader, hleads, hdriver]) (by rw [hdriver, hheader]; omega)
    · rw [Function.update_of_ne heq] at hbuilt
      have hconfigured' := (h.fetched port' command' hbuilt).1
      exact ⟨hconfigured',
        (h.kept hpages hconfigured' fun x hx _ => hother port' heq x hx).2 command' hbuilt⟩

theorem SlotsInv.step (hpages : PagesGranted pages) (h : SlotsInv pages s)
    (hstep : PortsStep pages s s') : SlotsInv pages s' := by
  cases hstep with
  | configure port => exact h.configure hpages port
  | command port hconfigured write command lba count buffer => exact h.fill hpages hconfigured
  | transferred port count =>
      apply h.elsewhere hpages
      intro port' x _ hx hcount
      apply ByteMemory.store_outside
      by_cases heq : port' = port
      · subst heq
        omega
      · have := hpages.outside (k := 0) (by decide) (Or.inl (Ne.symm heq)) hx
        omega
  | elsewhere mem houtside =>
      exact h.elsewhere hpages fun port x hconfigured hx _ => houtside port x hconfigured hx

def unconfigured (mem : ByteMemory) : PortsRun Port := ⟨mem, fun _ => false, fun _ => none⟩

/--
In every run of configuring ports, building commands and writing elsewhere, the
controller of each port finds in its first slot the command that was built for that
port last.
-/
theorem commands_fetched (hpages : PagesGranted pages) {mem : ByteMemory}
    (hreach : Reachable (· = unconfigured mem) (PortsStep pages) s) (port : Port)
    {built : HBACommand} (hbuilt : s.built port = some built) :
    fetchSlot s.mem (registersOf (pages port)).commandList = built := by
  have hinv : SlotsInv pages s := by
    apply hreach.invariant
    · rintro s rfl
      exact ⟨fun _ h => absurd h Bool.false_ne_true, fun _ _ h => nomatch h⟩
    · exact fun s s' h hstep => h.step hpages hstep
  rw [(registersOf_cmdHeader hpages port).2]
  exact (hinv.fetched port built hbuilt).2

/-- Two ports side by side; the second one's command leaves that of the first where it is. -/
theorem commands_fetched_two :
    ∃ s : PortsRun Bool, s.built false = some (buildCommand 0 ATA_CMD_READ_DMA_EX 5 1 0x9000) ∧
      fetchSlot s.mem (registersOf (0x100000 + 0x1000 * ·)).commandList =
        buildCommand 0 ATA_CMD_READ_DMA_EX 5 1 0x9000 := by
  have hpages : PagesGranted fun (port : Bool) k => 0x100000 * (port.toNat + 1) + 0x1000 * k := by
    constructor
    · intro port k hk
      have := port.toNat_le
      omega
    · intro port port' k k' hk hk' hsame
      have hport : port.toNat = port'.toNat := by omega
      exact ⟨by cases port <;> cases port' <;> trivial, by omega⟩
  have hstart : Reachable (· = unconfigured fun _ => 0)
      (PortsStep fun (port : Bool) k => 0x100000 * (port.toNat + 1) + 0x1000 * k) _ := .start rfl
  have hbuilt := (((hstart.next (.configure _ false)).next (.configure _ true)).next
    (.command _ false rfl 0 ATA_CMD_READ_DMA_EX 5 1 0x9000)).next
    (.command _ true rfl 1 ATA_CMD_WRITE_DMA_EX 6 1 0xA000)
  exact ⟨_, rfl, commands_fetched hpages hbuilt false rfl⟩

end Ports

end UnifiedOS.Drivers.AHCI
