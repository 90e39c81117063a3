import Mathlib.Data.List.Flatten
import UnifiedOS.Foundation.MachineInt

/-!
# PCI enumeration

The constructor of `PCI` walks the allocations of the MCFG table, the buses of
each, the devices of a bus and the functions of a device, and hands every
function it finds to the driver table.  At each level it first reads the header
at the address it has come to and leaves if there is no function.
-/

namespace UnifiedOS.Devices

open UnifiedOS.Foundation

structure DeviceConfig where
  baseAddress : BitVec 64
  startBus : BitVec 8
  endBus : BitVec 8
  deriving DecidableEq, Repr

/-- `ACPI::MCFGHeader`, with the memory behind it read as `DeviceConfig`s. -/
structure MCFG where
  length : BitVec 32
  deviceConfig : Nat → DeviceConfig

abbrev ConfigurationSpace := Nat → BitVec 16

variable (space : ConfigurationSpace)

/-- The validation at every level: what is found at an address with a function. -/
def validated (address : Nat) (calls : List Nat) : List Nat :=
  if space address = 0 then []
  else if space address = 0xFFFF then []
  else calls

/-- `PCI::EnumerateFunction`, as the addresses handed to `EnableDriverAtProgIFName`. -/
def enumerateFunction (deviceAddress function : Nat) : List Nat :=
  let functionAddress := wrap64 (deviceAddress + function <<< 12)
  validated space functionAddress [functionAddress]

def enumerateDevice (busAddress device : Nat) : List Nat :=
  let deviceAddress := wrap64 (busAddress + device <<< 15)
  validated space deviceAddress ((List.range 8).flatMap (enumerateFunction space deviceAddress))

def enumerateBus (baseAddress bus : Nat) : List Nat :=
  let busAddress := wrap64 (baseAddress + bus <<< 20)
  validated space busAddress ((List.range 32).flatMap (enumerateDevice space busAddress))

/-- `int entries`; `sizeof(MCFGHeader)` is 44 and `sizeof(DeviceConfig)` 16. -/
def entries (mcfg : MCFG) : Int :=
  (BitVec.ofNat 32 (sub64 mcfg.length.toNat 44 / 16)).toInt

def pci (mcfg : MCFG) : List Nat :=
  (List.range (entries mcfg).toNat).flatMap fun t =>
    let config := mcfg.deviceConfig t
    (List.range' config.startBus.toNat (config.endBus.toNat - config.startBus.toNat)).flatMap
      (enumerateBus space config.baseAddress.toNat)

/-! ## What there is to be found -/

def functionAddress (baseAddress bus device function : Nat) : Nat :=
  wrap64 (baseAddress + bus * 2 ^ 20 + device * 2 ^ 15 + function * 2 ^ 12)

def present (address : Nat) : Bool := space address ≠ 0 && space address ≠ 0xFFFF

def devicePresent (baseAddress bus device : Nat) : Bool :=
  present space (functionAddress baseAddress bus device 0)

def functionsOfDevice (baseAddress bus device : Nat) : List Nat :=
  ((List.range 8).map (functionAddress baseAddress bus device)).filter (present space)

def functionsOfBus (baseAddress bus : Nat) : List Nat :=
  ((List.range 32).filter (devicePresent space baseAddress bus)).flatMap
    (functionsOfDevice space baseAddress bus)

def buses (config : DeviceConfig) : List Nat :=
  List.range' config.startBus.toNat (config.endBus.toNat + 1 - config.startBus.toNat)

def allocations (mcfg : MCFG) : List DeviceConfig :=
  (List.range ((mcfg.length.toNat - 44) / 16)).map mcfg.deviceConfig

def existingFunctions (mcfg : MCFG) : List Nat :=
  (allocations mcfg).flatMap fun config =>
    (buses config).flatMap (functionsOfBus space config.baseAddress.toNat)

/-! ## The levels of the search -/

variable {space} {baseAddress bus device : Nat}

theorem validated_eq (address : Nat) (calls : List Nat) :
    validated space address calls = if present space address then calls else [] := by
  unfold validated present
  by_cases hzero : space address = 0
  · simp [hzero]
  · by_cases hones : space address = 0xFFFF
    · simp [hones]
    · rw [if_neg hzero, if_neg hones, if_pos]
      exact Bool.and_eq_true_iff.mpr ⟨decide_eq_true hzero, decide_eq_true hones⟩

theorem flatMap_ite {β : Type*} (l : List Nat) (f : Nat → β) (p : β → Bool) :
    (l.flatMap fun x => if p (f x) then [f x] else []) = (l.map f).filter p := by
  induction l with
  | nil => rfl
  | cons x l ih =>
      rw [List.flatMap_cons, ih, List.map_cons, List.filter_cons]
      cases p (f x) <;> rfl

theorem flatMap_filter {β : Type*} (l : List Nat) (p : Nat → Bool) (f : Nat → List β) :
    (l.flatMap fun x => if p x then f x else []) = (l.filter p).flatMap f := by
  induction l with
  | nil => rfl
  | cons x l ih =>
      rw [List.flatMap_cons, ih, List.filter_cons]
      cases p x <;> rfl

theorem busAddress_eq :
    wrap64 (baseAddress + bus <<< 20) = functionAddress baseAddress bus 0 0 := by
  simp [functionAddress, Nat.shiftLeft_eq]

theorem deviceAddress_eq : wrap64 (functionAddress baseAddress bus 0 0 + device <<< 15) =
    functionAddress baseAddress bus device 0 := by
  simp [functionAddress, Nat.shiftLeft_eq, wrap64]

theorem functionAddress_eq (function : Nat) :
    wrap64 (functionAddress baseAddress bus device 0 + function <<< 12) =
      functionAddress baseAddress bus device function := by
  simp [functionAddress, Nat.shiftLeft_eq, wrap64]

theorem enumerateDevice_eq : enumerateDevice space (functionAddress baseAddress bus 0 0) device =
    if devicePresent space baseAddress bus device then
      functionsOfDevice space baseAddress bus device
    else [] := by
  have hfunctions : enumerateFunction space (functionAddress baseAddress bus device 0) =
      fun function =>
        if present space (functionAddress baseAddress bus device function) then
          [functionAddress baseAddress bus device function]
        else [] := by
    funext function
    simp only [enumerateFunction, functionAddress_eq, validated_eq]
  simp only [enumerateDevice, deviceAddress_eq, validated_eq, hfunctions, flatMap_ite]
  rfl

/-- A bus is searched only if it has a device 0. -/
theorem enumerateBus_eq : enumerateBus space baseAddress bus =
    if devicePresent space baseAddress bus 0 then functionsOfBus space baseAddress bus else [] := by
  have hdevices : enumerateDevice space (functionAddress baseAddress bus 0 0) =
      fun device =>
        if devicePresent space baseAddress bus device then
          functionsOfDevice space baseAddress bus device
        else [] := by
    funext device
    exact enumerateDevice_eq
  simp only [enumerateBus, busAddress_eq, validated_eq, hdevices, flatMap_filter]
  rfl

theorem functionsOfBus_eq_nil : functionsOfBus space baseAddress bus = [] ↔
    ∀ device < 32, devicePresent space baseAddress bus device = false := by
  rw [functionsOfBus, List.flatMap_eq_nil_iff]
  constructor
  · intro hnil device hdevice
    cases hpresent : devicePresent space baseAddress bus device with
    | false => rfl
    | true =>
        have hfunctions := hnil device (List.mem_filter.mpr ⟨List.mem_range.mpr hdevice, hpresent⟩)
        have hfirst : functionAddress baseAddress bus device 0 ∈
            functionsOfDevice space baseAddress bus device :=
          List.mem_filter.mpr ⟨List.mem_map.mpr ⟨0, by simp, rfl⟩, hpresent⟩
        rw [hfunctions] at hfirst
        contradiction
  · intro habsent device hdevice
    rw [List.mem_filter, List.mem_range] at hdevice
    rw [habsent device hdevice.1] at hdevice
    exact absurd hdevice.2 Bool.false_ne_true

/-! ## Which functions the constructor finds -/

theorem entries_eq (mcfg : MCFG) : (entries mcfg).toNat = (mcfg.length.toNat - 44) / 16 := by
  have hlength := mcfg.length.isLt
  rw [entries, BitVec.toInt_eq_toNat_cond, BitVec.toNat_ofNat, sub64]
  split <;> omega

def enumeratedOn (space : ConfigurationSpace) (config : DeviceConfig) (bus : Nat) : List Nat :=
  if bus < config.endBus.toNat then enumerateBus space config.baseAddress.toNat bus else []

theorem pci_eq (mcfg : MCFG) : pci space mcfg =
    (allocations mcfg).flatMap fun config =>
      (buses config).flatMap (enumeratedOn space config) := by
  rw [pci, entries_eq, allocations, List.flatMap_map]
  apply List.flatMap_congr
  intro t _
  dsimp only
  set config := mcfg.deviceConfig t
  by_cases hempty : config.endBus.toNat < config.startBus.toNat
  · have hcode : config.endBus.toNat - config.startBus.toNat = 0 := by omega
    have hspec : config.endBus.toNat + 1 - config.startBus.toNat = 0 := by omega
    rw [buses, hcode, hspec]
    rfl
  · have hlast : config.endBus.toNat + 1 - config.startBus.toNat =
        config.endBus.toNat - config.startBus.toNat + 1 := by
      omega
    rw [buses, hlast, List.range'_concat, List.flatMap_append]
    have hend : [config.startBus.toNat + 1 * (config.endBus.toNat - config.startBus.toNat)].flatMap
        (enumeratedOn space config) = [] := by
      rw [List.flatMap_singleton, enumeratedOn, if_neg (by omega)]
    rw [hend, List.append_nil]
    apply List.flatMap_congr
    intro bus hbus
    rw [List.mem_range'_1] at hbus
    rw [enumeratedOn, if_pos (by omega)]

theorem enumeratedOn_sublist (config : DeviceConfig) (bus : Nat) :
    (enumeratedOn space config bus).Sublist
      (functionsOfBus space config.baseAddress.toNat bus) := by
  rw [enumeratedOn, enumerateBus_eq]
  split
  · split
    · exact List.Sublist.refl _
    · exact List.nil_sublist _
  · exact List.nil_sublist _

def BusCovered (space : ConfigurationSpace) (config : DeviceConfig) (bus : Nat) : Prop :=
  (bus < config.endBus.toNat ∧ devicePresent space config.baseAddress.toNat bus 0 = true) ∨
    ∀ device < 32, devicePresent space config.baseAddress.toNat bus device = false

theorem enumeratedOn_eq_iff (config : DeviceConfig) (bus : Nat) :
    enumeratedOn space config bus = functionsOfBus space config.baseAddress.toNat bus ↔
      BusCovered space config bus := by
  rw [enumeratedOn, enumerateBus_eq, BusCovered, ← functionsOfBus_eq_nil]
  by_cases hlast : bus < config.endBus.toNat
  · cases hfirst : devicePresent space config.baseAddress.toNat bus 0 with
    | true => simp [hlast]
    | false =>
        simp only [hlast, if_true, Bool.false_eq_true, if_false, and_false, false_or]
        exact eq_comm
  · simp only [hlast, if_false, false_and, false_or]
    exact eq_comm

theorem flatMap_perm_iff {β γ : Type*} {l : List β} {f g : β → List γ}
    (hsub : ∀ x ∈ l, (f x).Sublist (g x)) :
    (l.flatMap f).Perm (l.flatMap g) ↔ ∀ x ∈ l, f x = g x := by
  constructor
  · intro hperm
    have heq : l.flatMap f = l.flatMap g :=
      (List.Sublist.flatMap_right l hsub).eq_of_length hperm.length_eq
    clear hperm
    induction l with
    | nil => exact fun x hx => absurd hx List.not_mem_nil
    | cons x l ih =>
        have hhead := hsub x List.mem_cons_self
        have htail : ∀ y ∈ l, (f y).Sublist (g y) := fun y hy =>
          hsub y (List.mem_cons_of_mem x hy)
        have hrest := (List.Sublist.flatMap_right l htail).length_le
        have hlength := congrArg List.length heq
        rw [List.flatMap_cons, List.flatMap_cons, List.length_append, List.length_append] at hlength
        have hfirst : f x = g x := hhead.eq_of_length (by
          have := hhead.length_le
          omega)
        rw [List.flatMap_cons, List.flatMap_cons, hfirst, List.append_cancel_left_eq] at heq
        intro y hy
        cases hy with
        | head => exact hfirst
        | tail _ hy => exact ih htail heq y hy
  · intro heq
    rw [List.flatMap_congr heq]

/--
The drivers are offered every function of every device of the table's buses,
once each, exactly if every bus of every allocation is covered: a bus with
devices has a device 0 and is not the last one.
-/
theorem pci_complete_iff (space : ConfigurationSpace) (mcfg : MCFG) :
    (pci space mcfg).Perm (existingFunctions space mcfg) ↔
      ∀ config ∈ allocations mcfg, ∀ bus ∈ buses config, BusCovered space config bus := by
  have hsub : ∀ config, ∀ bus ∈ buses config, (enumeratedOn space config bus).Sublist
      (functionsOfBus space config.baseAddress.toNat bus) := fun config bus _ =>
    enumeratedOn_sublist config bus
  rw [pci_eq, existingFunctions,
    flatMap_perm_iff fun config _ => List.Sublist.flatMap_right _ (hsub config)]
  refine forall₂_congr fun config hconfig => ?_
  rw [← forall₂_congr fun bus _ => enumeratedOn_eq_iff config bus,
    ← flatMap_perm_iff (hsub config)]
  constructor
  · intro heq
    rw [heq]
  · intro hperm
    exact (List.Sublist.flatMap_right _ (hsub config)).eq_of_length hperm.length_eq

/-- A controller on the one bus of an allocation is not found. -/
theorem pci_misses_last_bus :
    ¬ (pci (fun address => if address = 0xB0000000 then 0x2922 else 0xFFFF)
        ⟨60, fun _ => ⟨0xB0000000, 0, 0⟩⟩).Perm
      (existingFunctions (fun address => if address = 0xB0000000 then 0x2922 else 0xFFFF)
        ⟨60, fun _ => ⟨0xB0000000, 0, 0⟩⟩) := by
  intro hperm
  have hlength := hperm.length_eq
  revert hlength
  decide +kernel

end UnifiedOS.Devices
