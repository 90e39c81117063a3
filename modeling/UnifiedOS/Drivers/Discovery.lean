import UnifiedOS.Devices.PCI
import UnifiedOS.Drivers.DriverManager
import UnifiedOS.FileSystem.MountOrder

/-!
# From the PCI bus to the volumes

The constructor of `PCI` hands each function it finds to `EnableDriverAtProgIFName`,
which adds a driver for the AHCI controllers; `ActivateAll` lets each of them probe its
ports; and `InitVolumes` mounts the ports of the driver that `FindDriver` comes to.
-/

namespace UnifiedOS.Drivers

open UnifiedOS.Foundation UnifiedOS.Devices UnifiedOS.FileSystem

structure PCIHeader0 where
  deviceID : BitVec 16
  progIF : BitVec 8
  subClass : BitVec 8
  class_ : BitVec 8
  bar5 : BitVec 32

namespace PCI

/--
`PCI::EnableDriverAtProgIFName`: the value it returns and whether it adds an AHCI driver.
A class whose cases do not return falls through to those of the next.
-/
def enableDriverAtProgIFName (header : PCIHeader0) : BitVec 8 × Bool :=
  let serialBus : BitVec 8 × Bool :=
    if header.subClass = 0x03 ∧ (header.progIF = 0x00 ∨ header.progIF = 0x10 ∨
      header.progIF = 0x20 ∨ header.progIF = 0x30 ∨ header.progIF = 0x80 ∨ header.progIF = 0xFE)
    then (0x01, false) else (0x00, false)
  let display : BitVec 8 × Bool :=
    if header.subClass = 0x00 ∧ (header.progIF = 0x00 ∨ header.progIF = 0x01)
    then (0x01, false) else serialBus
  if header.class_ = 0x01 then
    if header.subClass = 0x06 ∧ header.progIF = 0x00 then (0x01, false)
    else if header.subClass = 0x06 ∧ header.progIF = 0x01 then (0x01, true)
    else if header.subClass = 0x06 ∧ header.progIF = 0x02 then (0x01, false)
    else display
  else if header.class_ = 0x03 then display
  else if header.class_ = 0x0C then serialBus
  else (0x00, false)

end PCI

namespace AHCI

def HBA_PORT_DEV_PRESENT : BitVec 8 := 0x3
def HBA_PORT_IPM_ACTIVE : BitVec 8 := 0x1
def SATA_SIG_ATAPI : BitVec 32 := 0xEB140101
def SATA_SIG_ATA : BitVec 32 := 0x00000101
def SATA_SIG_SEMB : BitVec 32 := 0xC33C0101
def SATA_SIG_PM : BitVec 32 := 0x96690101

inductive PortType where
  | none
  | sata
  | semb
  | pm
  | satapi
  deriving DecidableEq, Repr

structure HBAPortStatus where
  sataStatus : BitVec 32
  signature : BitVec 32

structure HBAMemory where
  portsImplemented : BitVec 32
  ports : Nat → HBAPortStatus

/-- `CheckPortType`; for an unknown signature it ends without returning anything. -/
def checkPortType (port : HBAPortStatus) : Option PortType :=
  let interfacePowerManagement : BitVec 8 := (port.sataStatus >>> 8).setWidth 8 &&& 0b111
  let deviceDetection : BitVec 8 := port.sataStatus.setWidth 8 &&& 0b111
  if deviceDetection ≠ HBA_PORT_DEV_PRESENT then some .none
  else if interfacePowerManagement ≠ HBA_PORT_IPM_ACTIVE then some .none
  else if port.signature = SATA_SIG_ATAPI then some .satapi
  else if port.signature = SATA_SIG_ATA then some .sata
  else if port.signature = SATA_SIG_PM then some .pm
  else if port.signature = SATA_SIG_SEMB then some .semb
  else none

/-- An `AHCIPort`, its registers named by the controller's `ABAR` and their index. -/
structure AHCIPort where
  abar : Nat
  registers : Nat
  portNumber : Nat
  portType : PortType
  deriving DecidableEq, Repr

structure AHCIDriver where
  pciBaseAddress : Nat
  abar : Nat
  ports : Nat → Option AHCIPort
  portCount : Nat

def AHCIDriver.new (pciBaseAddress : Nat) : AHCIDriver := ⟨pciBaseAddress, 0, fun _ => none, 0⟩

def probePort (hba : HBAMemory) (driver : AHCIDriver) (i : Nat) : Option AHCIDriver :=
  if hba.portsImplemented.getLsbD i then
    (checkPortType (hba.ports i)).map fun portType =>
      if portType = .sata then
        { driver with
          ports := Function.update driver.ports driver.portCount
            (some ⟨driver.abar, i, driver.portCount, portType⟩)
          portCount := driver.portCount + 1 }
      else driver
  else some driver

def probePorts (hba : HBAMemory) (driver : AHCIDriver) : Option AHCIDriver :=
  (List.range 32).foldlM (probePort hba) driver

def activate (headers : Nat → PCIHeader0) (hba : Nat → HBAMemory) (driver : AHCIDriver) :
    Option AHCIDriver :=
  let abar := (headers driver.pciBaseAddress).bar5.toNat
  probePorts (hba abar) { driver with abar := abar }

end AHCI

open AHCI PCI

/-- The machine as it is found: configuration space, controllers, and where `new` puts objects. -/
structure Machine where
  headers : Nat → PCIHeader0
  hba : Nat → HBAMemory
  news : Nat → Nat

structure Loaded where
  manager : DriverManager
  heap : DriverHeap
  ahci : Nat → AHCIDriver
  count : Nat

namespace Loaded

variable (machine : Machine)

def enable (s : Loaded) (pciHeader : Nat) : Option Loaded :=
  if (enableDriverAtProgIFName (machine.headers pciHeader)).2 then
    let driver := machine.news s.count
    (s.manager.addDriver driver).map fun manager =>
      { manager := manager
        heap := Function.update s.heap driver ⟨DriverManager.ahciName, driver⟩
        ahci := Function.update s.ahci driver (.new pciHeader)
        count := s.count + 1 }
  else some s

def setupPCI (mcfg : MCFG) (s : Loaded) : Option Loaded :=
  (pci (fun address => (machine.headers address).deviceID) mcfg).foldlM (enable machine) s

def activateNext (s : Loaded) (i : Nat) : Option Loaded :=
  let driver := s.manager.drivers i
  if driver ≠ 0 then
    (activate machine.headers machine.hba (s.ahci driver)).map fun object =>
      { s with ahci := Function.update s.ahci driver object }
  else some s

def activateAll (s : Loaded) : Option Loaded :=
  (List.range s.manager.numDrivers).foldlM (activateNext machine) s

end Loaded

section Volumes

variable {Partition : Type*} [DecidableEq Partition]

def initVolumes (found : AHCIPort → List Partition) (s : Loaded)
    (vm : VolumeManager AHCIPort Partition) : VolumeManager AHCIPort Partition :=
  let driver := s.manager.findDriver s.heap DriverManager.ahciName
  if driver ≠ 0 then
    if (s.heap driver).mainObject ≠ 0 then
      let ahciDriver := s.ahci (s.heap driver).mainObject
      (List.range ahciDriver.portCount).foldl
        (fun vm p =>
          match ahciDriver.ports p with
          | some port => if port.portType = .sata then (vm.mountVolume port (found port)).1 else vm
          | none => vm)
        vm
    else vm
  else vm

/-- The kernel from `DeviceManager` to `InitVolumes`, as far as drivers and volumes go. -/
def bootVolumes (machine : Machine) (mcfg : MCFG) (found : AHCIPort → List Partition)
    (initial : Loaded) (vm : VolumeManager AHCIPort Partition) :
    Option (VolumeManager AHCIPort Partition) :=
  (initial.setupPCI machine mcfg).bind fun s =>
    (s.activateAll machine).map fun s => initVolumes found s vm

end Volumes

/-! ## What there is to be mounted -/

def isAHCI (header : PCIHeader0) : Bool :=
  header.class_ == 0x01 && header.subClass == 0x06 && header.progIF == 0x01

def controllers (machine : Machine) (mcfg : MCFG) : List Nat :=
  (pci (fun address => (machine.headers address).deviceID) mcfg).filter fun address =>
    isAHCI (machine.headers address)

def hasDisk (hba : HBAMemory) (i : Nat) : Bool :=
  hba.portsImplemented.getLsbD i && checkPortType (hba.ports i) == some .sata

def disksOf (abar : Nat) (registers : List Nat) : List AHCIPort :=
  registers.mapIdx fun number i => ⟨abar, i, number, .sata⟩

def diskPorts (machine : Machine) (pciHeader : Nat) : List AHCIPort :=
  let abar := (machine.headers pciHeader).bar5.toNat
  disksOf abar ((List.range 32).filter (hasDisk (machine.hba abar)))

def Known (hba : HBAMemory) : Prop :=
  ∀ i < 32, hba.portsImplemented.getLsbD i = true → checkPortType (hba.ports i) ≠ none

/-- A driver is added for AHCI controllers and for nothing that falls through to another class. -/
theorem enableDriverAtProgIFName_adds (header : PCIHeader0) :
    (enableDriverAtProgIFName header).2 = isAHCI header := by
  unfold enableDriverAtProgIFName isAHCI
  by_cases hclass : header.class_ = 0x01
  · by_cases hkind : header.subClass = 0x06 ∧ header.progIF = 0x01
    · simp [hclass, hkind]
    · have hother : (header.subClass == 0x06 && header.progIF == 0x01) = false := by
        simpa using hkind
      simp only [hclass, if_true, if_neg hkind, Bool.and_assoc, hother, Bool.and_false]
      split_ifs <;> rfl
  · have hother : (header.class_ == 0x01) = false := by simpa using hclass
    simp only [if_neg hclass, hother, Bool.false_and]
    split_ifs <;> rfl

/-! ## Probing -/

theorem update_getElem? {α : Type*} (l : List α) (x : α) :
    Function.update (fun k => l[k]?) l.length (some x) = fun k => (l ++ [x])[k]? := by
  funext k
  rcases Nat.lt_trichotomy k l.length with hlt | heq | hgt
  · rw [Function.update_of_ne (by omega), List.getElem?_append_left hlt]
  · rw [heq, Function.update_self, List.getElem?_concat_length]
  · rw [Function.update_of_ne (by omega), List.getElem?_eq_none (by omega),
      List.getElem?_eq_none (by simp; omega)]

theorem disksOf_append (abar : Nat) (registers : List Nat) (i : Nat) :
    disksOf abar (registers ++ [i]) =
      disksOf abar registers ++ [⟨abar, i, registers.length, .sata⟩] := by
  simp [disksOf]

theorem length_disksOf (abar : Nat) (registers : List Nat) :
    (disksOf abar registers).length = registers.length := List.length_mapIdx

theorem probePort_eq {hba : HBAMemory} {i : Nat} (driver : AHCIDriver)
    (hknown : hba.portsImplemented.getLsbD i = true → checkPortType (hba.ports i) ≠ none) :
    probePort hba driver i = some (if hasDisk hba i then
      { driver with
        ports := Function.update driver.ports driver.portCount
          (some ⟨driver.abar, i, driver.portCount, .sata⟩)
        portCount := driver.portCount + 1 }
      else driver) := by
  rw [probePort, hasDisk]
  by_cases himplemented : hba.portsImplemented.getLsbD i = true
  · obtain ⟨portType, htype⟩ := Option.ne_none_iff_exists'.mp (hknown himplemented)
    rw [if_pos himplemented, htype, Option.map_some, himplemented, Bool.true_and]
    by_cases hsata : portType = .sata
    · simp [hsata]
    · simp [hsata]
  · rw [if_neg himplemented]
    simp [himplemented]

theorem probe_eq {hba : HBAMemory} {pciHeader abar : Nat} {registers : List Nat}
    (hknown : ∀ i ∈ registers, hba.portsImplemented.getLsbD i = true →
      checkPortType (hba.ports i) ≠ none) :
    registers.foldlM (probePort hba) ⟨pciHeader, abar, fun _ => none, 0⟩ =
      some ⟨pciHeader, abar, fun k => (disksOf abar (registers.filter (hasDisk hba)))[k]?,
        (registers.filter (hasDisk hba)).length⟩ := by
  induction registers using List.reverseRecOn with
  | nil => rfl
  | append_singleton registers i ih =>
      have hlast := hknown i (List.mem_append_right _ (List.mem_singleton_self i))
      rw [List.foldlM_append, ih fun j hj => hknown j (List.mem_append_left _ hj),
        List.filter_append, List.filter_singleton]
      simp only [Option.bind_eq_bind, Option.bind_some, List.foldlM_cons, List.foldlM_nil,
        probePort_eq _ hlast, Option.pure_def, Option.some.injEq]
      by_cases hdisk : hasDisk hba i = true
      · have hports := update_getElem? (disksOf abar (registers.filter (hasDisk hba)))
          ⟨abar, i, (registers.filter (hasDisk hba)).length, .sata⟩
        rw [length_disksOf, ← disksOf_append] at hports
        simp only [hports, hdisk, if_true, cond_true, List.length_append,
          List.length_singleton]
      · simp [hdisk]

theorem probePorts_eq {hba : HBAMemory} {pciHeader abar : Nat} (hknown : Known hba) :
    probePorts hba ⟨pciHeader, abar, fun _ => none, 0⟩ =
      some ⟨pciHeader, abar,
        fun k => (disksOf abar ((List.range 32).filter (hasDisk hba)))[k]?,
        ((List.range 32).filter (hasDisk hba)).length⟩ :=
  probe_eq fun i hi => hknown i (List.mem_range.mp hi)

section Machine

variable {machine : Machine} {mcfg : MCFG}

def activated (machine : Machine) (pciHeader : Nat) : AHCIDriver :=
  ⟨pciHeader, (machine.headers pciHeader).bar5.toNat, fun k => (diskPorts machine pciHeader)[k]?,
    (diskPorts machine pciHeader).length⟩

theorem activate_new {pciHeader : Nat}
    (hknown : Known (machine.hba (machine.headers pciHeader).bar5.toNat)) :
    activate machine.headers machine.hba (.new pciHeader) = some (activated machine pciHeader) := by
  rw [activate, activated, diskPorts, length_disksOf]
  exact probePorts_eq hknown

structure Fresh (news : Nat → Nat) (n : Nat) : Prop where
  nonzero : ∀ k < n, news k ≠ 0
  apart : ∀ j < n, ∀ k < n, news j = news k → j = k

theorem Fresh.mono {news : Nat → Nat} {n n' : Nat} (h : Fresh news n) (hle : n' ≤ n) :
    Fresh news n' :=
  ⟨fun k hk => h.nonzero k (by omega), fun j hj k hk => h.apart j (by omega) k (by omega)⟩

structure Added (machine : Machine) (found : List Nat) (state : Nat → Nat → AHCIDriver)
    (s : Loaded) : Prop where
  holds : s.manager.Holds ((List.range found.length).map machine.news)
  count : s.count = found.length
  heap : ∀ k < found.length, s.heap (machine.news k) = ⟨DriverManager.ahciName, machine.news k⟩
  object : ∀ k (hk : k < found.length), s.ahci (machine.news k) = state k found[k]

def noDrivers (drivers : Nat → Nat) (heap : DriverHeap) (ahci : Nat → AHCIDriver) : Loaded :=
  ⟨.initial drivers, heap, ahci, 0⟩

variable {s : Loaded} {found : List Nat} {pciHeader : Nat}

theorem Added.enable (h : Added machine found (fun _ => .new) s)
    (hadds : isAHCI (machine.headers pciHeader) = true)
    (hfresh : Fresh machine.news (found.length + 1))
    (hroom : found.length < DriverManager.maxDrivers) :
    ∃ s', s.enable machine pciHeader = some s' ∧
      Added machine (found ++ [pciHeader]) (fun _ => .new) s' := by
  obtain ⟨manager, hadded, hholds⟩ := h.holds.addDriver (machine.news found.length)
    (by rwa [List.length_map, List.length_range])
  have hlength : (found ++ [pciHeader]).length = found.length + 1 := List.length_append
  have hne : ∀ k < found.length, machine.news k ≠ machine.news found.length := fun k hk hsame =>
    absurd (hfresh.apart k (by omega) found.length (by omega) hsame) (by omega)
  have henabled : s.enable machine pciHeader = some
      ⟨manager, Function.update s.heap (machine.news found.length)
          ⟨DriverManager.ahciName, machine.news found.length⟩,
        Function.update s.ahci (machine.news found.length) (.new pciHeader), found.length + 1⟩ := by
    simp only [Loaded.enable, enableDriverAtProgIFName_adds, hadds, if_true, h.count, hadded,
      Option.map_some]
  refine ⟨_, henabled, ?_, ?_, fun k hk => ?_, fun k hk => ?_⟩
  · rw [hlength, List.range_succ, List.map_append]
    exact hholds
  · exact hlength.symm
  · dsimp only
    rcases Nat.lt_or_ge k found.length with hold | hnew
    · rw [Function.update_of_ne (hne k hold)]
      exact h.heap k hold
    · obtain rfl : k = found.length := by omega
      rw [Function.update_self]
  · dsimp only
    rcases Nat.lt_or_ge k found.length with hold | hnew
    · rw [Function.update_of_ne (hne k hold), List.getElem_append_left hold]
      exact h.object k hold
    · obtain rfl : k = found.length := by omega
      rw [Function.update_self, List.getElem_concat_length rfl]

theorem setupPCI_added (drivers : Nat → Nat) (heap : DriverHeap) (ahci : Nat → AHCIDriver)
    (hfresh : Fresh machine.news (controllers machine mcfg).length)
    (hroom : (controllers machine mcfg).length ≤ DriverManager.maxDrivers) :
    ∃ s, (noDrivers drivers heap ahci).setupPCI machine mcfg = some s ∧
      Added machine (controllers machine mcfg) (fun _ => .new) s := by
  unfold Loaded.setupPCI
  unfold controllers at hfresh hroom ⊢
  generalize pci (fun address => (machine.headers address).deviceID) mcfg = functions at *
  induction functions using List.reverseRecOn with
  | nil =>
      exact ⟨_, rfl, ⟨rfl, by simp [noDrivers]⟩, rfl, fun k hk => absurd hk (Nat.not_lt_zero k),
        fun k hk => absurd hk (Nat.not_lt_zero k)⟩
  | append_singleton functions pciHeader ih =>
      rw [List.filter_append, List.filter_singleton] at hfresh hroom ⊢
      rw [List.length_append] at hfresh hroom
      obtain ⟨s, hsetup, hadded⟩ := ih (hfresh.mono (Nat.le_add_right _ _)) (by omega)
      rw [List.foldlM_append, hsetup]
      simp only [Option.bind_eq_bind, Option.bind_some, List.foldlM_cons, List.foldlM_nil]
      cases hadds : isAHCI (machine.headers pciHeader) with
      | true =>
          rw [hadds] at hfresh hroom
          obtain ⟨s', henabled, hadded'⟩ := hadded.enable hadds hfresh (by exact hroom)
          exact ⟨s', by rw [henabled]; rfl, hadded'⟩
      | false =>
          refine ⟨s, ?_, by simpa using hadded⟩
          simp [Loaded.enable, enableDriverAtProgIFName_adds, hadds]

def activeTo (machine : Machine) (i k : Nat) : Nat → AHCIDriver :=
  if k < i then activated machine else .new

theorem Added.activateNext {i : Nat} (h : Added machine found (activeTo machine i) s)
    (hfresh : Fresh machine.news found.length) (hi : i < found.length)
    (hknown : Known (machine.hba (machine.headers found[i]).bar5.toNat)) :
    ∃ s', s.activateNext machine i = some s' ∧
      Added machine found (activeTo machine (i + 1)) s' := by
  have hdriver : s.manager.drivers i = machine.news i := h.holds.slots i _ (by simp [hi])
  have hobject : s.ahci (machine.news i) = .new found[i] := by
    rw [h.object i hi, activeTo, if_neg (Nat.lt_irrefl i)]
  have hstep : s.activateNext machine i = some { s with
      ahci := Function.update s.ahci (machine.news i) (activated machine found[i]) } := by
    simp only [Loaded.activateNext, hdriver, hobject, activate_new hknown, Option.map_some,
      if_pos (hfresh.nonzero i hi)]
  refine ⟨_, hstep, h.holds, h.count, h.heap, fun k hk => ?_⟩
  dsimp only
  by_cases hsame : k = i
  · subst hsame
    rw [Function.update_self, activeTo, if_pos (Nat.lt_succ_self k)]
  · have hne : machine.news k ≠ machine.news i := fun heq => hsame (hfresh.apart k hk i hi heq)
    rw [Function.update_of_ne hne, h.object k hk, activeTo, activeTo]
    simp only [Nat.lt_succ_iff_lt_or_eq, hsame, or_false]

theorem Added.activateAll (h : Added machine found (fun _ => .new) s)
    (hfresh : Fresh machine.news found.length)
    (hknown : ∀ pciHeader ∈ found, Known (machine.hba (machine.headers pciHeader).bar5.toNat)) :
    ∃ s', s.activateAll machine = some s' ∧
      Added machine found (fun _ => activated machine) s' := by
  have hnumber : s.manager.numDrivers = found.length := by
    rw [h.holds.count, List.length_map, List.length_range]
  have hprefix : ∀ n, n ≤ found.length → ∃ s',
      (List.range n).foldlM (Loaded.activateNext machine) s = some s' ∧
        Added machine found (activeTo machine n) s' := by
    intro n hn
    induction n with
    | zero => exact ⟨s, rfl, h⟩
    | succ n ih =>
        obtain ⟨s', hbefore, hadded⟩ := ih (by omega)
        obtain ⟨s'', hstep, hadded'⟩ := hadded.activateNext hfresh (by omega)
          (hknown _ (List.getElem_mem (by omega)))
        refine ⟨s'', ?_, hadded'⟩
        rw [List.range_succ, List.foldlM_append, hbefore]
        simp [hstep]
  obtain ⟨s', hall, hadded⟩ := hprefix found.length (le_refl _)
  refine ⟨s', by rw [Loaded.activateAll, hnumber, hall], hadded.holds, hadded.count, hadded.heap,
    fun k hk => ?_⟩
  rw [hadded.object k hk, activeTo, if_pos hk]

theorem foldl_range_eq {α β : Type*} {l : List α} {g : β → Nat → β} {f : β → α → β}
    (h : ∀ b k x, l[k]? = some x → g b k = f b x) (b : β) :
    (List.range l.length).foldl g b = l.foldl f b := by
  induction l using List.reverseRecOn with
  | nil => rfl
  | append_singleton l x ih =>
      have hlast := h (l.foldl f b) l.length x List.getElem?_concat_length
      rw [List.length_append, List.length_singleton, List.range_succ, List.foldl_append,
        List.foldl_append, ih fun b k y hk => h b k y ?_]
      · exact hlast
      · rw [List.getElem?_append_left (List.getElem?_eq_some_iff.mp hk).1, hk]

theorem portType_of_mem {port : AHCIPort} (h : port ∈ diskPorts machine pciHeader) :
    port.portType = .sata := by
  obtain ⟨k, hk, rfl⟩ := List.mem_mapIdx.mp h
  rfl

section Volumes

variable {Partition : Type*} [DecidableEq Partition] {found : List Nat}
  {partitionsOf : AHCIPort → List Partition}

/-- The disks that are mounted: those of the controller that was found first. -/
def bootDisks (machine : Machine) : List Nat → List AHCIPort
  | [] => []
  | pciHeader :: _ => diskPorts machine pciHeader

theorem Added.initVolumes (h : Added machine found (fun _ => activated machine) s)
    (hfresh : Fresh machine.news found.length) (vm : VolumeManager AHCIPort Partition) :
    initVolumes partitionsOf s vm = (bootDisks machine found).foldl
      (fun vm port => (vm.mountVolume port (partitionsOf port)).1) vm := by
  unfold Drivers.initVolumes
  rw [h.holds.findDriver_eq]
  cases found with
  | nil => rfl
  | cons pciHeader found =>
      have hzero : 0 < (pciHeader :: found).length := Nat.zero_lt_succ _
      have hnonzero := hfresh.nonzero 0 hzero
      have hheap := h.heap 0 hzero
      have hbegins :
          DriverManager.begins s.heap DriverManager.ahciName (machine.news 0) = true := by
        simp [DriverManager.begins, hheap, hnonzero]
      rw [List.length_cons, List.range_succ_eq_map, List.map_cons,
        List.find?_cons_of_pos hbegins, Option.getD_some]
      simp only [if_pos hnonzero, hheap, h.object 0 hzero]
      refine foldl_range_eq (fun vm k port hport => ?_) vm
      have hport' : (diskPorts machine pciHeader)[k]? = some port := hport
      dsimp only [List.getElem_cons_zero, activated]
      rw [hport']
      exact if_pos (portType_of_mem (List.mem_of_getElem? hport))

/--
After boot the letters of the volumes are those of the disks of the AHCI controller that
was found first, in the order of its ports; the disks of other controllers have none, and
the partitions found on the disks take their letters in the same order.
-/
theorem bootVolumes_mounts (hfresh : Fresh machine.news (controllers machine mcfg).length)
    (hroom : (controllers machine mcfg).length ≤ DriverManager.maxDrivers)
    (hknown : ∀ pciHeader ∈ controllers machine mcfg,
      Known (machine.hba (machine.headers pciHeader).bar5.toNat))
    (drivers : Nat → Nat) (heap : DriverHeap) (ahci : Nat → AHCIDriver)
    (mountings : Partition → Mounting) :
    ∃ vm, bootVolumes machine mcfg partitionsOf (noDrivers drivers heap ahci)
        (.initial mountings) = some vm ∧
      (∀ k, vm.volumes.slots k = if k < 26 then
        ((bootDisks machine (controllers machine mcfg))[k]?).map (Volume.mk k) else none) ∧
      ∀ k, vm.partitions.slots k = if k < 26 then
        (((bootDisks machine (controllers machine mcfg)).take 26).flatMap partitionsOf)[k]?
        else none := by
  obtain ⟨s, hsetup, hadded⟩ := setupPCI_added drivers heap ahci hfresh hroom
  obtain ⟨s', hactive, hadded'⟩ := hadded.activateAll hfresh hknown
  have hstart :
      (VolumeManager.initial mountings : VolumeManager AHCIPort Partition).InOrder [] [] :=
    ⟨MountTable.filled_empty, MountTable.filled_empty, Nat.zero_le _, Nat.zero_le _⟩
  have hmounted := hstart.mountVolumes partitionsOf (bootDisks machine (controllers machine mcfg))
  rw [← hadded'.initVolumes hfresh] at hmounted
  refine ⟨_, by rw [bootVolumes, hsetup, Option.bind_some, hactive, Option.map_some], fun k => ?_,
    fun k => ?_⟩
  · rw [hmounted.volumes.slots, List.nil_append, List.getElem?_mapIdx]
  · rw [hmounted.partitions.slots, List.nil_append, List.length_nil]

def smallMachine : Machine :=
  ⟨fun address => if address = 0xE0000000 then ⟨0x2922, 0x01, 0x06, 0x01, 0xF0000000⟩
      else ⟨0xFFFF, 0, 0, 0, 0⟩,
    fun _ => ⟨0b101, fun _ => ⟨0x113, SATA_SIG_ATA⟩⟩, fun k => k + 1⟩

theorem bootVolumes_mounts_small :
    ∃ vm : VolumeManager AHCIPort Nat,
      bootVolumes smallMachine ⟨60, fun _ => ⟨0xE0000000, 0, 1⟩⟩ (fun port => [port.registers])
        (noDrivers (fun _ => 0) (fun _ => ⟨DriverManager.audioName, 0⟩) fun _ => .new 0)
        (.initial fun _ => ⟨0, false⟩) = some vm ∧
      vm.volumes.slots 1 = some ⟨1, ⟨0xF0000000, 2, 1, .sata⟩⟩ ∧
      vm.partitions.slots 1 = some 2 := by
  have hfound : controllers smallMachine ⟨60, fun _ => ⟨0xE0000000, 0, 1⟩⟩ = [0xE0000000] := by
    decide +kernel
  have hfresh : Fresh smallMachine.news 1 :=
    ⟨fun k _ => Nat.succ_ne_zero k, fun j _ k _ h => Nat.succ.inj h⟩
  have hknown : Known (smallMachine.hba 0xF0000000) := fun _ _ _ =>
    (by decide : checkPortType ⟨0x113, SATA_SIG_ATA⟩ ≠ none)
  have hdisks : bootDisks smallMachine [0xE0000000] =
      [⟨0xF0000000, 0, 0, .sata⟩, ⟨0xF0000000, 2, 1, .sata⟩] := by
    decide +kernel
  obtain ⟨vm, hboot, hvolumes, hpartitions⟩ := @bootVolumes_mounts smallMachine
    ⟨60, fun _ => ⟨0xE0000000, 0, 1⟩⟩ Nat _ (fun port => [port.registers])
    (by rw [hfound]; exact hfresh) (by rw [hfound]; decide)
    (by rw [hfound]; rintro _ h; rw [List.mem_singleton.mp h]; exact hknown)
    (fun _ => 0) (fun _ => ⟨DriverManager.audioName, 0⟩) (fun _ => .new 0) (fun _ => ⟨0, false⟩)
  rw [hfound, hdisks] at hvolumes hpartitions
  exact ⟨vm, hboot, hvolumes 1, hpartitions 1⟩

end Volumes

end Machine

end UnifiedOS.Drivers
